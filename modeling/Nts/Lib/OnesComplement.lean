import Mathlib

/-!
# Sums with an end-around carry

Digits to the base `b` are added up and the carries added back in, until the sum is one digit. That keeps the sum
modulo `b - 1` and turns only zero into zero, so the digit that completes a sum to a multiple of `b - 1` completes the
folded sum to the largest digit.
-/

namespace OnesComplement

/-- The carries of a sum go back into it. -/
def fold (b s : Nat) : Nat := if 1 < b ∧ b ≤ s then fold b (s % b + s / b) else s
termination_by s
decreasing_by
  next carries =>
  obtain ⟨base, carries⟩ := carries
  have carried : 0 < s / b := Nat.div_pos carries (by omega)
  have twice : 2 * (s / b) ≤ b * (s / b) := Nat.mul_le_mul_right _ base
  have whole := Nat.div_add_mod s b
  omega

variable {b : Nat}

theorem fold_of_lt {s : Nat} (digit : s < b) : fold b s = s := by
  rw [fold, if_neg (by omega)]

theorem fold_of_le (base : 1 < b) {s : Nat} (carries : b ≤ s) : fold b s = fold b (s % b + s / b) := by
  rw [fold, if_pos ⟨base, carries⟩]

/-- Only zero is folded to zero. -/
theorem fold_bounds (base : 1 < b) (s : Nat) : fold b s < b ∧ (fold b s = 0 ↔ s = 0) := by
  induction s using Nat.strong_induction_on with
  | _ s ih =>
    by_cases carries : b ≤ s
    · have carried : 0 < s / b := Nat.div_pos carries (by omega)
      have twice : 2 * (s / b) ≤ b * (s / b) := Nat.mul_le_mul_right _ base
      have whole := Nat.div_add_mod s b
      obtain ⟨digit, zero⟩ := ih (s % b + s / b) (by omega)
      rw [fold_of_le base carries]
      refine ⟨digit, zero.trans ?_⟩
      omega
    · rw [fold_of_lt (by omega)]
      exact ⟨by omega, Iff.rfl⟩

/-- A carry is worth one, modulo `b - 1`. -/
theorem fold_modEq (base : 1 < b) (s : Nat) : fold b s ≡ s [MOD b - 1] := by
  induction s using Nat.strong_induction_on with
  | _ s ih =>
    by_cases carries : b ≤ s
    · have carried : 0 < s / b := Nat.div_pos carries (by omega)
      have twice : 2 * (s / b) ≤ b * (s / b) := Nat.mul_le_mul_right _ base
      have whole := Nat.div_add_mod s b
      have carry : b ≡ 1 [MOD b - 1] := ((Nat.modEq_iff_dvd' (by omega)).mpr (dvd_refl _)).symm
      rw [fold_of_le base carries]
      calc fold b (s % b + s / b) ≡ s % b + s / b [MOD b - 1] := ih _ (by omega)
        _ ≡ s % b + b * (s / b) [MOD b - 1] := by
          have worth := (carry.mul_right (s / b)).symm
          rw [Nat.one_mul] at worth
          exact worth.add_left _
        _ = s := by omega
    · rw [fold_of_lt (by omega)]

/-- A positive multiple of `b - 1` is folded to the largest digit. -/
theorem fold_of_dvd (base : 1 < b) {s : Nat} (positive : 0 < s) (multiple : b - 1 ∣ s) : fold b s = b - 1 := by
  obtain ⟨digit, zero⟩ := fold_bounds base s
  have here : b - 1 ∣ fold b s := (Nat.modEq_zero_iff_dvd).mp ((fold_modEq base s).trans (Nat.modEq_zero_iff_dvd.mpr multiple))
  have least := Nat.le_of_dvd (by omega) here
  omega

/-- The complement of a folded sum completes the sum. -/
theorem fold_add_complement (base : 1 < b) (s : Nat) : fold b (s + (b - 1 - fold b s)) = b - 1 := by
  obtain ⟨digit, zero⟩ := fold_bounds base s
  apply fold_of_dvd base
  · omega
  · have complete : fold b s + (b - 1 - fold b s) = b - 1 := by omega
    have sum := (fold_modEq base s).add_right (b - 1 - fold b s)
    rw [complete] at sum
    exact Nat.modEq_zero_iff_dvd.mp (sum.symm.trans (Nat.modEq_zero_iff_dvd.mpr (dvd_refl _)))

end OnesComplement
