import Mathlib

/-!
# Mixing a counter

A generator adds a step to a word and mixes the sum with shifts, xors and products. When every part of it
is one to one, a period of it takes every value of the word once: whatever is decided about its values is decided
as often as there are values.
-/

namespace Mixing
variable {w : Nat}

/-- `z ^ (z >> k)`. -/
def xorshift (k : Nat) (z : BitVec w) : BitVec w := z ^^^ (z >>> k)

/-- A word shows through from its highest bits downwards. -/
theorem xorshift_injective {k : Nat} (positive : 0 < k) : Function.Injective (xorshift (w := w) k) := by
  intro x y same
  have bits : ∀ n i, w - i ≤ n → x.getLsbD i = y.getLsbD i := by
    intro n
    induction n with
    | zero =>
      intro i high
      have outside : w ≤ i := by omega
      rw [BitVec.getLsbD_of_ge x i outside, BitVec.getLsbD_of_ge y i outside]
    | succ n ih =>
      intro i _
      have here := congrArg (fun z : BitVec w => z.getLsbD i) same
      simp only [xorshift, BitVec.getLsbD_xor, BitVec.getLsbD_ushiftRight] at here
      rw [ih (k + i) (by omega)] at here
      exact Bool.xor_left_inj.mp here
  exact BitVec.eq_of_getLsbD_eq fun i _ => bits (w - i) i (Nat.le_refl _)

/-- A factor with an inverse loses nothing. -/
theorem mul_injective {c inverse : BitVec w} (unit : c * inverse = 1#w) : Function.Injective fun z => z * c := by
  intro x y same
  have back := congrArg (· * inverse) same
  simp only [BitVec.mul_assoc, unit] at back
  rwa [BitVec.mul_one, BitVec.mul_one] at back

/-- The word after `n` steps. -/
def counter (step start : BitVec w) (n : Nat) : BitVec w := start + .ofNat w n * step

section
variable {step start inverse : BitVec w}

theorem counter_zero : counter step start 0 = start := by
  rw [counter, BitVec.zero_mul, BitVec.add_zero]

theorem counter_add (n k : Nat) : counter step start (n + k) = counter step (counter step start n) k := by
  rw [counter, counter, counter, BitVec.ofNat_add, BitVec.add_mul, BitVec.add_assoc]

theorem counter_succ (n : Nat) : counter step start (n + 1) = counter step start n + step := by
  rw [counter_add, counter, BitVec.one_mul]

/-- A period is as long as the word has values. -/
theorem counter_period (n : Nat) : counter step start (n + 2 ^ w) = counter step start n := by
  have whole : BitVec.ofNat w (2 ^ w) = 0#w := by
    apply BitVec.eq_of_toNat_eq
    rw [BitVec.toNat_ofNat, Nat.mod_self, BitVec.toNat_zero]
  rw [counter_add, counter, whole, BitVec.zero_mul, BitVec.add_zero]

/-- A step with an inverse leads from every word to every other. -/
theorem counter_reaches (unit : step * inverse = 1#w) (target : BitVec w) :
    counter step start ((target - start) * inverse).toNat = target := by
  rw [counter, BitVec.ofNat_toNat, BitVec.setWidth_eq, BitVec.mul_assoc, BitVec.mul_comm inverse, unit, BitVec.mul_one,
    BitVec.add_comm, BitVec.sub_add_cancel]

theorem counter_injOn (unit : step * inverse = 1#w) : Set.InjOn (counter step start) (Finset.range (2 ^ w)) := by
  intro i low j low' same
  have steps := mul_injective unit ((BitVec.add_right_inj start).mp same)
  have values := congrArg BitVec.toNat steps
  rwa [BitVec.toNat_ofNat, BitVec.toNat_ofNat, Nat.mod_eq_of_lt (Finset.mem_range.mp low),
    Nat.mod_eq_of_lt (Finset.mem_range.mp low')] at values

/-- **A full period.** What a one-to-one mix of the counter decides, it decides once for each value. -/
theorem count_period (unit : step * inverse = 1#w) {mix : BitVec w → BitVec w} (injective : Function.Injective mix)
    (decides : BitVec w → Prop) [DecidablePred decides] :
    Nat.count (fun n => decides (mix (counter step start n))) (2 ^ w) = (Finset.univ.filter decides).card := by
  have distinct : Set.InjOn (fun n => mix (counter step start n)) (Finset.range (2 ^ w)) :=
    injective.comp_injOn (counter_injOn unit)
  have every : (Finset.range (2 ^ w)).image (fun n => mix (counter step start n)) = Finset.univ := by
    rw [← Finset.card_eq_iff_eq_univ, Finset.card_image_of_injOn distinct, Finset.card_range,
      Fintype.card_congr BitVec.equivFin.toEquiv, Fintype.card_fin]
  rw [Nat.count_eq_card_filter_range, ← every, Finset.filter_image, Finset.card_image_of_injOn]
  exact distinct.mono fun n member => Finset.mem_of_mem_filter n member

end

/-- The words below a bound. -/
theorem card_below (bound : Nat) : (Finset.univ.filter fun z : BitVec w => z.toNat < bound).card = min bound (2 ^ w) := by
  have values : (Finset.univ.filter fun z : BitVec w => z.toNat < bound).image BitVec.toNat = Finset.range (min bound (2 ^ w)) := by
    ext n
    simp only [Finset.mem_image, Finset.mem_filter, Finset.mem_univ, true_and, Finset.mem_range, Nat.lt_min]
    constructor
    · rintro ⟨z, below, rfl⟩
      exact ⟨below, z.isLt⟩
    · rintro ⟨below, fits⟩
      refine ⟨.ofNat w n, ?_, ?_⟩ <;> rw [BitVec.toNat_ofNat, Nat.mod_eq_of_lt fits]
      exact below
  rw [← Finset.card_range (min bound (2 ^ w)), ← values, Finset.card_image_of_injective _ fun x y => BitVec.eq_of_toNat_eq]

end Mixing
