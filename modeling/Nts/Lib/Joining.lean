import Nts.Lib.HighWater

/-!
# Ranges that touch

`joined` makes one range of ranges that follow each other without a hole. What a receiver with a high-water
mark skips on a line some of whose pieces are lost, the others arriving in order, are the ranges of the lost
pieces, joined.
-/

/-- Ranges that touch the one behind them become one with it. -/
def Span.joined : List Span → List Span
  | [] => []
  | s :: spans =>
    match Span.joined spans with
    | [] => [s]
    | t :: rest => if s.first + s.size = t.first then ⟨s.first, s.size + t.size⟩ :: rest else s :: t :: rest

namespace Span
variable {spans : List Span}

/-- The first range begins where the first of them does. -/
theorem joined_head {s t : Span} {rest : List Span} (head : joined (s :: spans) = t :: rest) : t.first = s.first := by
  rw [joined] at head
  split at head
  · cases head
    rfl
  · split at head
    · cases head
      rfl
    · cases head
      rfl

/-- Joining keeps the total. -/
theorem sum_joined (spans : List Span) : ((joined spans).map size).sum = (spans.map size).sum := by
  induction spans with
  | nil => rfl
  | cons s spans ih =>
    rw [List.map_cons, List.sum_cons, ← ih, joined]
    split
    · next alone => rw [alone]; rfl
    · next t rest behind =>
      rw [behind]
      split
      · simp only [List.map_cons, List.sum_cons, Nat.add_assoc]
      · simp only [List.map_cons, List.sum_cons]

/-- Two ranges that touch are as good as one. -/
theorem joined_touching (first size size' : Nat) (spans : List Span) :
    joined (⟨first, size⟩ :: ⟨first + size, size'⟩ :: spans) = joined (⟨first, size + size'⟩ :: spans) := by
  have inner := joined.eq_2 ⟨first + size, size'⟩ spans
  have whole := joined.eq_2 ⟨first, size + size'⟩ spans
  have outer := joined.eq_2 ⟨first, size⟩ (⟨first + size, size'⟩ :: spans)
  rw [outer, whole, inner]
  cases joined spans with
  | nil => simp
  | cons t rest =>
    dsimp only
    by_cases touches : first + size + size' = t.first
    · rw [if_pos touches, if_pos (by omega)]
      simp only [if_true, Nat.add_assoc]
    · rw [if_neg touches, if_neg (by omega)]
      simp only [if_true]

/-- A range in front of the others stays on its own. -/
theorem joined_apart {s : Span} (apart : ∀ t ∈ spans, s.first + s.size < t.first) : joined (s :: spans) = s :: joined spans := by
  rw [joined]
  split
  · next alone => rw [alone]
  · next t rest behind =>
    cases spans with
    | nil => cases behind
    | cons t' spans =>
      have head := joined_head behind
      have far := apart t' List.mem_cons_self
      rw [if_neg (by omega), behind]

end Span

namespace HighWater
variable {α β : Type*} {first next : α → Nat} {stop q e : Nat}

/-- The range of a piece. -/
def span (first next : α → Nat) (x : α) : Span := ⟨first x, next x - first x⟩

/-- The hole between a mark and what comes next. -/
def hole (mark reached : Nat) : List Span := if mark < reached then [⟨mark, reached - mark⟩] else []

/-- The pieces that are not lost are taken, where they arrive in order. -/
theorem Line.taken_kept {line : List α} (whole : Line first next e line stop) (lost : α → Bool) {mark : Nat} (below : mark ≤ e) :
    taken first next stop mark ((line.filter fun x => !lost x).map some ++ [none]) = line.filter fun x => !lost x := by
  induction line generalizing e mark with
  | nil => rfl
  | cons x line ih =>
    obtain ⟨⟨rfl, filled⟩, later⟩ := whole
    cases gone : lost x with
    | true =>
      rw [List.filter_cons_of_neg (by rw [gone]; decide)]
      exact ih later (below.trans filled.le)
    | false =>
      rw [List.filter_cons_of_pos (by rw [gone]; rfl), List.map_cons, List.cons_append, taken, if_pos below,
        ih later (Nat.le_refl _)]

/-- **What is skipped is what is lost**, joined. -/
theorem Line.skipped_kept {line : List α} (whole : Line first next e line stop) (lost : α → Bool) {mark : Nat} (below : mark ≤ e) :
    skipped first next stop mark ((line.filter fun x => !lost x).map some ++ [none]) =
      Span.joined (hole mark e ++ (line.filter fun x => lost x).map (span first next)) := by
  induction line generalizing e mark with
  | nil =>
    obtain rfl : e = stop := whole
    rw [List.filter_nil, List.filter_nil, List.map_nil, List.map_nil, List.append_nil, List.nil_append, skipped, skipped, hole,
      List.append_nil]
    split
    · rfl
    · rfl
  | cons x line ih =>
    obtain ⟨⟨rfl, filled⟩, later⟩ := whole
    cases gone : lost x with
    | true =>
      have rest := ih later (below.trans filled.le)
      rw [List.filter_cons_of_neg (by rw [gone]; decide), List.filter_cons_of_pos gone, rest, List.map_cons]
      rw [hole, if_pos (by omega), List.singleton_append, hole, span]
      by_cases open' : mark < first x
      · have touches : first x = mark + (first x - mark) := by omega
        have size : next x - mark = first x - mark + (next x - first x) := by omega
        rw [if_pos open', List.singleton_append, size, ← Span.joined_touching, ← touches]
      · obtain rfl : mark = first x := by omega
        rw [if_neg open', List.nil_append]
    | false =>
      have rest := ih later (Nat.le_refl (next x))
      have closed : hole (next x) (next x) = [] := if_neg (Nat.lt_irrefl _)
      rw [closed, List.nil_append] at rest
      rw [List.filter_cons_of_pos (by rw [gone]; rfl), List.filter_cons_of_neg (by rw [gone]; decide), List.map_cons, List.cons_append,
        skipped, if_pos below, rest]
      change hole mark (first x) ++ _ = _
      rw [hole]
      split
      · next open' =>
        refine (Span.joined_apart fun t member => ?_).symm
        obtain ⟨y, behind, rfl⟩ := List.mem_map.mp member
        have far := (later.inside y (List.mem_of_mem_filter behind)).1
        change mark + (first x - mark) < first y
        omega
      · rfl

/-- Pieces with the same ends are skipped alike. -/
theorem skipped_congr {first' next' : β → Nat} {xs : List α} {ys : List β}
    (same : xs.map (fun x => (first x, next x)) = ys.map fun y => (first' y, next' y)) (mark : Nat) :
    skipped first next stop mark (xs.map some ++ [none]) = skipped first' next' stop mark (ys.map some ++ [none]) := by
  induction xs generalizing ys mark with
  | nil =>
    obtain rfl := List.map_eq_nil_iff.mp same.symm
    rfl
  | cons x xs ih =>
    obtain ⟨y, ys, rfl, ends, rest⟩ := List.map_eq_cons_iff.mp same.symm
    obtain ⟨start, behind⟩ := Prod.mk.inj ends
    simp only [List.map_cons, List.cons_append, skipped, start, behind, ih rest.symm]

/-- Nothing is skipped below the mark. -/
theorem le_skipped {xs : List (Option α)} (grow : ∀ x, some x ∈ xs → first x < next x) (mark : Nat) :
    ∀ s ∈ skipped first next stop mark xs, mark ≤ s.first := by
  induction xs generalizing mark with
  | nil => exact fun _ member => (List.not_mem_nil member).elim
  | cons o xs ih =>
    have later := ih fun x member => grow x (List.mem_cons_of_mem _ member)
    have own : ∀ reached, ∀ s ∈ (if mark < reached then [(⟨mark, reached - mark⟩ : Span)] else []), mark ≤ s.first := by
      intro reached s member
      split at member
      · rw [List.mem_singleton.mp member]
      · cases member
    intro s member
    cases o with
    | none =>
      rcases List.mem_append.mp member with here | behind
      · exact own _ s here
      · exact (Nat.le_max_left _ _).trans (later _ s behind)
    | some x =>
      have positive := grow x List.mem_cons_self
      rw [skipped] at member
      split at member
      · next ahead =>
        rcases List.mem_append.mp member with here | behind
        · exact own _ s here
        · have high := later _ s behind
          omega
      · exact later _ s member

end HighWater
