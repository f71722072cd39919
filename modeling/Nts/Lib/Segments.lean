import Mathlib

/-!
# Maximal segments between separators

`segments p xs` are the longest runs of consecutive elements of `xs` that are no
separators, in order.
-/

namespace Segments
variable {α : Type*} (p : α → Bool)

/-- The non-empty pieces the separators cut a list into. -/
def segments (xs : List α) : List (List α) := (xs.splitOnP p).filter fun s => !s.isEmpty

@[simp] theorem segments_nil : segments p [] = [] := rfl

/-- A separator ends the segments in front of it. -/
theorem segments_append_cons (xs ys : List α) {sep : α} (separator : p sep = true) :
    segments p (xs ++ sep :: ys) = segments p xs ++ segments p ys := by
  rw [segments, List.splitOnP_append_cons xs ys separator, List.filter_append]
  rfl

/-- A list without separators is one segment. -/
theorem segments_of_none {xs : List α} (unparted : ∀ x ∈ xs, p x = false) (nonempty : xs ≠ []) : segments p xs = [xs] := by
  rw [segments, List.splitOnP_eq_singleton unparted]
  simp [nonempty]

/-- The segments hold everything but the separators. -/
theorem flatten_segments (xs : List α) : (segments p xs).flatten = xs.filter fun x => !p x := by
  have pieces : (segments p xs).flatten = (xs.splitOnP p).flatten := List.flatten_filter_not_isEmpty
  rw [pieces]
  clear pieces
  induction xs with
  | nil => rfl
  | cons x xs ih =>
    obtain ⟨piece, rest, split⟩ := List.exists_cons_of_ne_nil (List.splitOnP_ne_nil p xs)
    rw [List.splitOnP_cons_eq_if_modifyHead, List.filter_cons]
    rw [split] at ih ⊢
    cases separator : p x with
    | true => simpa using ih
    | false => simpa using ih

end Segments
