import Nts.Lib.Ledger

/-!
# Receivers with a high-water mark

Pieces of a line of numbers arrive, and so does the end of the line: some never, some more than
once, in any order. A receiver takes a piece that does not begin below its mark and moves the mark behind
it, skipping what lies between; the end only raises the mark. Whatever arrives, the pieces taken are in
order and taken once, and they are the whole line exactly when their sizes fill it.
-/

namespace HighWater
variable {α : Type*} (first next : α → Nat) (stop : Nat)

/-- The pieces taken from a mark on; `none` is the end of the line. -/
def taken : Nat → List (Option α) → List α
  | _, [] => []
  | mark, some x :: xs => if mark ≤ first x then x :: taken (next x) xs else taken mark xs
  | mark, none :: xs => taken (max mark stop) xs

/-- The ranges skipped from a mark on. -/
def skipped : Nat → List (Option α) → List Span
  | _, [] => []
  | mark, some x :: xs =>
    if mark ≤ first x then (if mark < first x then [⟨mark, first x - mark⟩] else []) ++ skipped (next x) xs
    else skipped mark xs
  | mark, none :: xs => (if mark < stop then [⟨mark, stop - mark⟩] else []) ++ skipped (max mark stop) xs

/-- The mark behind everything that arrives. -/
def raised : Nat → List (Option α) → Nat
  | mark, [] => mark
  | mark, some x :: xs => if mark ≤ first x then raised (next x) xs else raised mark xs
  | mark, none :: xs => raised (max mark stop) xs

/-- The pieces follow one another from `q` up to `e`, none of them empty. -/
def Line : Nat → List α → Nat → Prop
  | q, [], e => q = e
  | q, x :: xs, e => (first x = q ∧ first x < next x) ∧ Line (next x) xs e

section
variable {first next} {q e mark : Nat} {line : List α} {xs : List (Option α)}

theorem Line.le (whole : Line first next q line e) : q ≤ e := by
  induction line generalizing q with
  | nil =>
    obtain rfl : q = e := whole
    exact Nat.le_refl q
  | cons x line ih =>
    obtain ⟨⟨rfl, filled⟩, later⟩ := whole
    exact Nat.le_of_lt (filled.trans_le (ih later))

/-- Every piece lies on the line. -/
theorem Line.inside (whole : Line first next q line e) : ∀ x ∈ line, q ≤ first x ∧ first x < next x ∧ next x ≤ e := by
  induction line generalizing q with
  | nil => exact fun _ member => (List.not_mem_nil member).elim
  | cons x line ih =>
    obtain ⟨⟨rfl, filled⟩, later⟩ := whole
    intro y member
    rcases List.mem_cons.mp member with rfl | behind
    · exact ⟨Nat.le_refl _, filled, later.le⟩
    · obtain ⟨low, rest⟩ := ih later y behind
      exact ⟨filled.le.trans low, rest⟩

theorem Line.sorted (whole : Line first next q line e) : line.Pairwise fun x y => first x < first y := by
  induction line generalizing q with
  | nil => exact .nil
  | cons x line ih =>
    obtain ⟨⟨rfl, filled⟩, later⟩ := whole
    exact List.pairwise_cons.mpr ⟨fun y member => filled.trans_le (later.inside y member).1, ih later⟩

/-- The sizes of the pieces fill the line. -/
theorem Line.total (whole : Line first next q line e) : q + (line.map fun x => next x - first x).sum = e := by
  induction line generalizing q with
  | nil => exact whole
  | cons x line ih =>
    obtain ⟨⟨rfl, filled⟩, later⟩ := whole
    have rest := ih later
    rw [List.map_cons, List.sum_cons]
    omega

/-- The pieces taken begin at or above the mark, each behind the one before. -/
theorem taken_sorted (grow : ∀ x, some x ∈ xs → first x < next x) (mark : Nat) :
    (taken first next stop mark xs).Pairwise (fun x y => first x < first y) ∧
      ∀ x ∈ taken first next stop mark xs, some x ∈ xs ∧ mark ≤ first x := by
  induction xs generalizing mark with
  | nil => exact ⟨.nil, fun _ member => (List.not_mem_nil member).elim⟩
  | cons o xs ih =>
    have later := ih fun x member => grow x (List.mem_cons_of_mem _ member)
    cases o with
    | none =>
      obtain ⟨sorted, above⟩ := later (max mark stop)
      refine ⟨sorted, fun x member => ?_⟩
      obtain ⟨arrived, high⟩ := above x member
      exact ⟨List.mem_cons_of_mem _ arrived, (Nat.le_max_left mark stop).trans high⟩
    | some x =>
      have positive := grow x List.mem_cons_self
      rw [taken]
      split
      · next here =>
        obtain ⟨sorted, above⟩ := later (next x)
        refine ⟨List.pairwise_cons.mpr ⟨fun y member => positive.trans_le (above y member).2, sorted⟩, ?_⟩
        intro y member
        rcases List.mem_cons.mp member with rfl | behind
        · exact ⟨List.mem_cons_self, here⟩
        · obtain ⟨arrived, high⟩ := above y behind
          exact ⟨List.mem_cons_of_mem _ arrived, here.trans (positive.le.trans high)⟩
      · obtain ⟨sorted, above⟩ := later mark
        exact ⟨sorted, fun y member => ⟨List.mem_cons_of_mem _ (above y member).1, (above y member).2⟩⟩

/-- **In order and once.** What is taken of a line is a part of it, in its order. -/
theorem Line.taken_sublist (whole : Line first next q line e) (onLine : ∀ x, some x ∈ xs → x ∈ line) (mark : Nat) :
    (taken first next stop mark xs).Sublist line := by
  obtain ⟨sorted, above⟩ := taken_sorted stop (fun x member => (whole.inside x (onLine x member)).2.1) mark
  have distinct : (taken first next stop mark xs).Nodup :=
    sorted.imp fun less same => Nat.ne_of_lt less (congrArg first same)
  have antisymm : Std.Antisymm fun x y => first x < first y := ⟨fun x y less more => absurd less (Nat.lt_asymm more)⟩
  exact List.sublist_of_subperm_of_pairwise
    (List.subperm_of_subset distinct fun x member => onLine x (above x member).1) sorted whole.sorted

/-- **Accounts.** What was taken and what was skipped raise the mark. -/
theorem taken_add_skipped (grow : ∀ x, some x ∈ xs → first x < next x) (mark : Nat) :
    mark + ((taken first next stop mark xs).map fun x => next x - first x).sum +
      ((skipped first next stop mark xs).map Span.size).sum = raised first next stop mark xs := by
  induction xs generalizing mark with
  | nil => rfl
  | cons o xs ih =>
    have later := ih fun x member => grow x (List.mem_cons_of_mem _ member)
    cases o with
    | none =>
      have rest := later (max mark stop)
      rw [taken, skipped, raised, List.map_append, List.sum_append, ← rest]
      split
      · rw [List.map_singleton, List.sum_singleton]
        dsimp only
        omega
      · rw [List.map_nil, List.sum_nil]
        omega
    | some x =>
      have positive := grow x List.mem_cons_self
      rw [taken, skipped, raised]
      split
      · next here =>
        have rest := later (next x)
        rw [List.map_cons, List.sum_cons, List.map_append, List.sum_append, ← rest]
        split
        · rw [List.map_singleton, List.sum_singleton]
          dsimp only
          omega
        · rw [List.map_nil, List.sum_nil]
          omega
      · exact later mark

theorem le_raised (grow : ∀ x, some x ∈ xs → first x < next x) (mark : Nat) : mark ≤ raised first next stop mark xs := by
  have accounts := taken_add_skipped stop grow mark
  omega

variable {stop} in
/-- The mark never leaves the line, and the end takes it there. -/
theorem Line.raised_le (whole : Line first next q line stop) (onLine : ∀ x, some x ∈ xs → x ∈ line) (here : mark ≤ stop) :
    raised first next stop mark xs ≤ stop ∧ (none ∈ xs → raised first next stop mark xs = stop) := by
  induction xs generalizing mark with
  | nil => exact ⟨here, fun member => (List.not_mem_nil member).elim⟩
  | cons o xs ih =>
    have later : ∀ x, some x ∈ xs → x ∈ line := fun x member => onLine x (List.mem_cons_of_mem _ member)
    cases o with
    | none =>
      have top : max mark stop = stop := Nat.max_eq_right here
      have low := le_raised stop (fun x member => (whole.inside x (later x member)).2.1) stop
      obtain ⟨high, _⟩ := ih later (Nat.le_refl stop)
      rw [raised, top]
      exact ⟨high, fun _ => Nat.le_antisymm high low⟩
    | some x =>
      have rest : none ∈ some x :: xs → none ∈ xs := fun member =>
        (List.mem_cons.mp member).resolve_left (Option.some_ne_none x).symm
      rw [raised]
      split
      · obtain ⟨high, reached⟩ := ih later (whole.inside x (onLine x List.mem_cons_self)).2.2
        exact ⟨high, fun member => reached (rest member)⟩
      · obtain ⟨high, reached⟩ := ih later here
        exact ⟨high, fun member => reached (rest member)⟩

/-- A part of a list of positive sizes with the same total is the whole list. -/
theorem eq_of_sum {size : α → Nat} {part : List α} (sublist : part.Sublist line) (positive : ∀ x ∈ line, 0 < size x)
    (same : (part.map size).sum = (line.map size).sum) : part = line := by
  induction sublist with
  | slnil => rfl
  | @cons xs ys x shorter ih =>
    have first := positive x List.mem_cons_self
    have least := (shorter.map size).sum_le_sum fun _ _ => Nat.zero_le _
    rw [List.map_cons, List.sum_cons] at same
    omega
  | @cons_cons xs ys x shorter ih =>
    rw [List.map_cons, List.map_cons, List.sum_cons, List.sum_cons] at same
    rw [ih (fun y member => positive y (List.mem_cons_of_mem _ member)) (Nat.add_left_cancel same)]

/-- **Nothing is missing** exactly when the sizes of the pieces taken fill the line. -/
theorem Line.taken_eq_iff (whole : Line first next q line e) (onLine : ∀ x, some x ∈ xs → x ∈ line) (mark : Nat) :
    taken first next stop mark xs = line ↔
      q + ((taken first next stop mark xs).map fun x => next x - first x).sum = e := by
  have total := whole.total
  constructor
  · intro all
    rw [all, total]
  · intro filled
    refine eq_of_sum (whole.taken_sublist stop onLine mark) (fun x member => ?_) (Nat.add_left_cancel (filled.trans total.symm))
    have := (whole.inside x member).2.1
    omega

end
end HighWater
