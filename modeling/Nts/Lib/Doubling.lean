import Mathlib

/-!
# Stores that double

A store that keeps a quarter free starts with room for `first` and doubles when a call needs more. While no call needs more than
one place beyond the load bound, the state is a function of the largest need so far, and
all rebuilds together have walked the capacity, less the first one.
-/

namespace Doubling

/-- Capacity, doublings, and places walked by them. -/
structure State where
  capacity : Nat := 0
  doublings : Nat := 0
  walked : Nat := 0

/-- Make room for `need`. -/
def ask (first : Nat) (s : State) (need : Nat) : State :=
  if 3 * s.capacity < 4 * need then
    if s.capacity = 0 then { s with capacity := first }
    else ⟨2 * s.capacity, s.doublings + 1, s.walked + s.capacity⟩
  else s

section
variable {first : Nat} {s : State} {need : Nat}

theorem ask_within (fits : 4 * need ≤ 3 * s.capacity) : ask first s need = s := if_neg (Nat.not_lt.mpr fits)

theorem ask_first (more : 3 * s.capacity < 4 * need) (empty : s.capacity = 0) : ask first s need = { s with capacity := first } := by
  rw [ask, if_pos more, if_pos empty]

theorem ask_doubles (more : 3 * s.capacity < 4 * need) (nonzero : s.capacity ≠ 0) :
    ask first s need = ⟨2 * s.capacity, s.doublings + 1, s.walked + s.capacity⟩ := by
  rw [ask, if_pos more, if_neg nonzero]

end

/-- The state after needs of which `d` was the largest. -/
structure Fits (first : Nat) (s : State) (d : Nat) : Prop where
  start : d = 0 → s.capacity = 0 ∧ s.doublings = 0 ∧ s.walked = 0
  grown : d ≠ 0 → s.capacity = first * 2 ^ s.doublings ∧ s.walked + first = s.capacity
  room : 4 * d ≤ 3 * s.capacity
  least : ∀ r, s.doublings = r + 1 → 3 * (first * 2 ^ r) < 4 * d

theorem fits_new (first : Nat) : Fits first {} 0 := ⟨fun _ => ⟨rfl, rfl, rfl⟩, fun nonzero => (nonzero rfl).elim, le_refl 0, fun _ eq => by cases eq⟩

variable {first : Nat} {s : State} {d need : Nat}

/-- One call. -/
theorem Fits.ask (fits : Fits first s d) (wide : 2 ≤ first) (one : 4 * need ≤ 3 * s.capacity + 4) :
    Fits first (ask first s need) (max d need) := by
  obtain ⟨start, grown, room, least⟩ := fits
  by_cases more : 3 * s.capacity < 4 * need
  · have less : d ≤ need := by omega
    rw [Nat.max_eq_right less]
    by_cases none : d = 0
    · obtain ⟨capacity, doublings, walked⟩ := start none
      rw [ask_first more capacity]
      refine ⟨fun zero => by omega, fun _ => ⟨?_, ?_⟩, ?_, ?_⟩
      · simp only [doublings, pow_zero, Nat.mul_one]
      · simp only [walked, Nat.zero_add]
      · dsimp only
        omega
      · intro r eq
        simp only [doublings] at eq
        omega
    · obtain ⟨capacity, walked⟩ := grown none
      rw [ask_doubles more (by omega)]
      refine ⟨fun zero => by omega, fun _ => ⟨?_, ?_⟩, ?_, ?_⟩
      · simp only [pow_succ]
        rw [capacity]
        ring
      · dsimp only
        omega
      · dsimp only
        omega
      · intro r eq
        obtain rfl : s.doublings = r := Nat.succ.inj eq
        rw [← capacity]
        exact more
  · rw [ask_within (Nat.not_lt.mp more)]
    by_cases below : need ≤ d
    · rw [Nat.max_eq_left below]
      exact ⟨start, grown, room, least⟩
    · -- a larger need that still fits: the store is not empty, so it has been grown before
      have nonzero : d ≠ 0 := by
        intro nothing
        have empty := (start nothing).1
        omega
      rw [Nat.max_eq_right (by omega)]
      refine ⟨fun zero => by omega, fun _ => grown nonzero, by omega, fun r eq => ?_⟩
      have bound := least r eq
      omega

/-- The store is never larger than eight thirds of the largest need, but for its first size. -/
theorem Fits.capacity_le (fits : Fits first s d) : s.capacity ≤ first ∨ 3 * s.capacity < 8 * d := by
  by_cases none : d = 0
  · left
    rw [(fits.start none).1]
    exact Nat.zero_le first
  · obtain ⟨capacity, _⟩ := fits.grown none
    cases doublings : s.doublings with
    | zero =>
      left
      rw [capacity, doublings, pow_zero, Nat.mul_one]
    | succ r =>
      right
      have bound := fits.least r doublings
      have twice : s.capacity = 2 * (first * 2 ^ r) := by
        rw [capacity, doublings, pow_succ]
        ring
      omega

/-- All rebuilds together walk fewer than eight thirds of the largest need. -/
theorem Fits.walked_le (fits : Fits first s d) : 3 * s.walked ≤ 8 * d := by
  by_cases none : d = 0
  · have nothing := (fits.start none).2.2
    omega
  · have total := (fits.grown none).2
    rcases fits.capacity_le with small | bound <;> omega

end Doubling
