import Mathlib

/-!
# Stores into a buffer

A store writes some elements from an offset on. Stores that stay inside the
buffer keep its length, change their own window only, and combine when one
starts where the other ends.
-/

/-- Some elements to be written from an offset on. -/
structure Store (α : Type*) where
  off : Nat
  items : List α
  deriving DecidableEq, Repr

namespace Store
variable {α : Type*}

/-- The store stays inside a buffer of `size` elements. -/
def Inside (size : Nat) (w : Store α) : Prop := w.off + w.items.length ≤ size

instance (size : Nat) (w : Store α) : Decidable (w.Inside size) := inferInstanceAs (Decidable (_ ≤ _))

/-- The buffer after a store. -/
def apply (buffer : List α) (w : Store α) : List α :=
  buffer.take w.off ++ w.items ++ buffer.drop (w.off + w.items.length)

/-- The buffer after some stores, one after the other. -/
def applyAll (buffer : List α) (ws : List (Store α)) : List α := ws.foldl apply buffer

/-- The `n` elements from `off` on. -/
def slice (buffer : List α) (off n : Nat) : List α := (buffer.drop off).take n

variable {buffer : List α} {w : Store α} {off n : Nat}

theorem length_apply (inside : w.Inside buffer.length) : (apply buffer w).length = buffer.length := by
  have bound : w.off + w.items.length ≤ buffer.length := inside
  simp only [apply, List.length_append, List.length_take, List.length_drop]
  omega

/-- Two stores end to end are one. -/
theorem apply_apply (buffer : List α) (off : Nat) (items items' : List α) (inside : off + items.length ≤ buffer.length) :
    apply (apply buffer ⟨off, items⟩) ⟨off + items.length, items'⟩ = apply buffer ⟨off, items ++ items'⟩ := by
  have taken : (buffer.take off).length = off := by
    rw [List.length_take]
    omega
  have front : (buffer.take off ++ items ++ buffer.drop (off + items.length)).take (off + items.length) =
      buffer.take off ++ items := List.take_left' (by rw [List.length_append, taken])
  have back : (buffer.take off ++ items ++ buffer.drop (off + items.length)).drop
      (off + items.length + items'.length) = buffer.drop (off + items.length + items'.length) := by
    rw [← List.drop_drop, List.drop_left' (by rw [List.length_append, taken]), List.drop_drop]
  simp only [apply]
  rw [front, back, List.length_append, ← List.append_assoc, Nat.add_assoc]

theorem slice_add (buffer : List α) (off n k : Nat) :
    slice buffer off (n + k) = slice buffer off n ++ slice buffer (off + n) k := by
  simp only [slice, List.take_add, List.drop_drop]

/-- The window of a store shows what was written. -/
theorem slice_self (inside : w.Inside buffer.length) : slice (apply buffer w) w.off w.items.length = w.items := by
  have bound : w.off + w.items.length ≤ buffer.length := inside
  have taken : (buffer.take w.off).length = w.off := by
    rw [List.length_take]
    omega
  rw [slice, apply, List.append_assoc, List.drop_left' taken, List.take_left' rfl]

/-- What lies in front of a store stays. -/
theorem slice_before (inside : w.Inside buffer.length) (before : off + n ≤ w.off) :
    slice (apply buffer w) off n = slice buffer off n := by
  have bound : w.off + w.items.length ≤ buffer.length := inside
  simp only [slice, apply]
  rw [List.append_assoc, List.drop_append_of_le_length (by rw [List.length_take]; omega), List.take_append_of_le_length
    (by rw [List.length_drop, List.length_take]; omega), List.drop_take, List.take_take]
  congr 1
  omega

/-- What lies behind a store stays. -/
theorem slice_after (inside : w.Inside buffer.length) (behind : w.off + w.items.length ≤ off) :
    slice (apply buffer w) off n = slice buffer off n := by
  have bound : w.off + w.items.length ≤ buffer.length := inside
  obtain ⟨k, rfl⟩ := Nat.exists_eq_add_of_le behind
  simp only [slice, apply]
  rw [← List.drop_drop, List.drop_left', List.drop_drop]
  rw [List.length_append, List.length_take]
  omega

end Store
