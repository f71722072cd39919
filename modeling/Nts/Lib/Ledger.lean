import Mathlib

/-!
# Ledgers of consecutive numbers

A counter runs from `start` to `next`; on the way every number is either taken
or skipped as part of a range. `Ledger` says so of the two lists that come out: the
numbers taken are in order, and each number passed was taken once or skipped once, never both.
-/

/-- The numbers from `first` on, `size` of them. -/
structure Span where
  first : Nat
  size : Nat
  deriving DecidableEq, Repr

/-- The number lies in the range. -/
def Span.Covers (s : Span) (n : Nat) : Prop := s.first ≤ n ∧ n < s.first + s.size

instance (s : Span) (n : Nat) : Decidable (s.Covers n) := inferInstanceAs (Decidable (_ ∧ _))

/-- The numbers from `start` up to `next` are those taken and those skipped. -/
structure Ledger (start : Nat) (taken : List Nat) (skipped : List Span) (next : Nat) : Prop where
  ordered : taken.Pairwise (· < ·)
  once : ∀ n, taken.count n + skipped.countP (fun s => s.Covers n) = if start ≤ n ∧ n < next then 1 else 0
  total : next = start + taken.length + (skipped.map Span.size).sum

namespace Ledger
variable {start next : Nat} {taken : List Nat} {skipped : List Span}

theorem empty (start : Nat) : Ledger start [] [] start where
  ordered := .nil
  once n := by
    rw [if_neg (by omega)]
    rfl
  total := rfl

theorem start_le (ledger : Ledger start taken skipped next) : start ≤ next := by
  have := ledger.total
  omega

/-- What was taken lies behind the counter. -/
theorem taken_lt (ledger : Ledger start taken skipped next) {n : Nat} (member : n ∈ taken) : n < next := by
  have positive := List.count_pos_iff.mpr member
  have once := ledger.once n
  by_contra beyond
  rw [if_neg (by omega)] at once
  omega

/-- Skip a range. -/
theorem skip (ledger : Ledger start taken skipped next) (size : Nat) :
    Ledger start taken (skipped ++ [⟨next, size⟩]) (next + size) where
  ordered := ledger.ordered
  once n := by
    have once := ledger.once n
    have low := ledger.start_le
    rw [List.countP_append, List.countP_singleton, ← Nat.add_assoc, once]
    have last : Span.Covers ⟨next, size⟩ n ↔ next ≤ n ∧ n < next + size := Iff.rfl
    simp only [decide_eq_true_eq, last]
    split <;> split <;> split <;> omega
  total := by
    have total := ledger.total
    rw [List.map_append, List.sum_append, List.map_singleton, List.sum_singleton]
    dsimp only
    omega

/-- Take a range. -/
theorem take (ledger : Ledger start taken skipped next) (size : Nat) :
    Ledger start (taken ++ List.range' next size) skipped (next + size) where
  ordered := by
    rw [List.pairwise_append]
    refine ⟨ledger.ordered, List.pairwise_lt_range', ?_⟩
    intro n old m new
    have below := ledger.taken_lt old
    have above := List.mem_range'_1.mp new
    omega
  once n := by
    have once := ledger.once n
    have low := ledger.start_le
    rw [List.count_append, List.count_range_1', Nat.add_right_comm, once]
    split <;> split <;> split <;> omega
  total := by
    have total := ledger.total
    rw [List.length_append, List.length_range']
    omega

end Ledger
