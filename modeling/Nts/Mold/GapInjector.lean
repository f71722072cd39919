import Nts.Lib.Mixing
import Nts.Lib.Runs

/-!
# `GapInjector` (`mold/gap_injector.h`)

The decisions of the replayer's gap injector. A probability is a `double` that is a number, so a
rational one; the 53 bits that are compared with it make an exact `double`. Infinity drops what 1 drops, and what is not
a number drops nothing, as 0 does.
-/

namespace Nts.Mold
open Mixing

structure GapInjector where
  every : BitVec 64 := 0
  probability : ℚ := 0
  state : BitVec 64 := 0

namespace GapInjector

/-- `none`. -/
def none : GapInjector := {}

/-- `every_nth`. -/
def everyNth (n : BitVec 64) : GapInjector := { every := n }

/-- `with_probability`. -/
def withProbability (p : ℚ) (seed : BitVec 64) : GapInjector := { probability := p, state := seed }

/-- What is added to the state for every packet. -/
def step : BitVec 64 := 0x9E3779B97F4A7C15#64

/-- The three rounds of splitmix64. -/
def mix (state : BitVec 64) : BitVec 64 :=
  let z := state
  let z := (z ^^^ (z >>> 30)) * 0xBF58476D1CE4E5B9#64
  let z := (z ^^^ (z >>> 27)) * 0x94D049BB133111EB#64
  z ^^^ (z >>> 31)

/-- `should_drop`. -/
def shouldDrop (g : GapInjector) (packetIndex : BitVec 64) : GapInjector × Bool :=
  if g.every ≠ 0 then (g, (packetIndex + 1) % g.every == 0)
  else if g.probability > 0 then
    let state := g.state + step
    let u : ℚ := (mix state >>> 11).toNat * (1 / 9007199254740992)
    ({ g with state }, decide (u < g.probability))
  else (g, false)

/-- `active`. -/
def active (g : GapInjector) : Bool := g.every ≠ 0 || decide (g.probability > 0)

/-- The injector behind its decisions on the packets below `i`. -/
def before (g : GapInjector) (i : Nat) : GapInjector := Runs.after shouldDrop g ((List.range i).map (.ofNat 64))

/-- Its decision on packet `i`, asked for each packet in turn. -/
def drops (g : GapInjector) (i : Nat) : Bool := ((g.before i).shouldDrop (.ofNat 64 i)).2

/-! ## Decisions -/

section
variable {g : GapInjector}

theorem shouldDrop_every (every : g.every ≠ 0) (packetIndex : BitVec 64) :
    g.shouldDrop packetIndex = (g, (packetIndex + 1) % g.every == 0) := if_pos every

theorem shouldDrop_counting (never : g.every = 0) (likely : 0 < g.probability) (packetIndex : BitVec 64) :
    g.shouldDrop packetIndex = ({ g with state := g.state + step },
      decide (((mix (g.state + step) >>> 11).toNat : ℚ) * (1 / 9007199254740992) < g.probability)) := by
  rw [shouldDrop, if_neg (not_not.mpr never), if_pos likely]

theorem shouldDrop_never (never : g.every = 0) (unlikely : ¬ 0 < g.probability) (packetIndex : BitVec 64) :
    g.shouldDrop packetIndex = (g, false) := by
  rw [shouldDrop, if_neg (not_not.mpr never), if_neg unlikely]

theorem before_succ (g : GapInjector) (i : Nat) : g.before (i + 1) = ((g.before i).shouldDrop (.ofNat 64 i)).1 := by
  rw [before, List.range_succ, List.map_append, Runs.after_append]
  rfl

/-- Every packet steps the counter, in the mode that has one. -/
theorem before_eq (g : GapInjector) (i : Nat) :
    g.before i = if g.every = 0 ∧ 0 < g.probability then { g with state := counter step g.state i } else g := by
  induction i with
  | zero =>
    split
    · rw [counter_zero]
      rfl
    · rfl
  | succ i ih =>
    rw [before_succ, ih]
    by_cases counting : g.every = 0 ∧ 0 < g.probability
    · rw [if_pos counting, if_pos counting, counter_succ]
      rw [shouldDrop_counting (g := { g with state := counter step g.state i }) counting.1 counting.2]
    · rw [if_neg counting, if_neg counting]
      by_cases never : g.every = 0
      · rw [shouldDrop_never never fun likely => counting ⟨never, likely⟩]
      · rw [shouldDrop_every never]

/-- An inactive injector drops nothing. -/
theorem drops_of_inactive (inactive : g.active = false) (i : Nat) : g.drops i = false := by
  simp only [active, ne_eq, gt_iff_lt, Bool.or_eq_false_iff, decide_eq_false_iff_not, not_not] at inactive
  rw [drops, before_eq, if_neg fun counting => inactive.2 counting.2, shouldDrop_never inactive.1 inactive.2]

/-- The packets that `everyNth` drops, counted from one, are the multiples of `n`. -/
theorem drops_everyNth {n : BitVec 64} {i : Nat} (below : i + 1 < 2 ^ 64) :
    (everyNth n).drops i = true ↔ n ≠ 0 ∧ n.toNat ∣ i + 1 := by
  have still : ((everyNth n).before i) = everyNth n := by
    rw [before_eq]
    exact if_neg fun counting => absurd counting.2 (lt_irrefl 0)
  have index : (BitVec.ofNat 64 i + 1#64).toNat = i + 1 := by
    rw [← BitVec.ofNat_add, BitVec.toNat_ofNat, Nat.mod_eq_of_lt below]
  rw [drops, still]
  by_cases never : n = 0
  · rw [shouldDrop_never never (lt_irrefl 0)]
    exact iff_of_false Bool.false_ne_true fun both => both.1 never
  · rw [shouldDrop_every never, beq_iff_eq, ← BitVec.toNat_inj, BitVec.toNat_umod, Nat.dvd_iff_mod_eq_zero]
    change (BitVec.ofNat 64 i + 1#64).toNat % n.toNat = 0 ↔ _
    rw [index]
    exact (and_iff_right never).symm

/-- `everyNth` drops one packet in `n`. -/
theorem count_everyNth {n : BitVec 64} {k : Nat} (small : k < 2 ^ 64) :
    Nat.count (fun i => (everyNth n).drops i) k = k / n.toNat := by
  rw [Nat.count_eq_card_filter_range, ← Nat.card_multiples]
  congr 1
  apply Finset.filter_congr
  intro i below
  rw [drops_everyNth (by have := Finset.mem_range.mp below; omega), and_iff_right_iff_imp]
  rintro divides rfl
  exact Nat.succ_ne_zero i (Nat.zero_dvd.mp divides)

theorem mix_eq (z : BitVec 64) :
    mix z = xorshift 31 (xorshift 27 (xorshift 30 z * 0xBF58476D1CE4E5B9#64) * 0x94D049BB133111EB#64) := rfl

/-- Splitmix64 is one to one. -/
theorem mix_injective : Function.Injective mix := by
  intro x y same
  rw [mix_eq, mix_eq] at same
  have unit : 0x94D049BB133111EB#64 * 0x319642B2D24D8EC3#64 = 1#64 := by decide
  have unit' : 0xBF58476D1CE4E5B9#64 * 0x96DE1B173F119089#64 = 1#64 := by decide
  have third := xorshift_injective (by decide) same
  have second := xorshift_injective (by decide) (mul_injective unit third)
  exact xorshift_injective (by decide) (mul_injective unit' second)

/-- The inverse of the step. -/
theorem step_unit : step * 0xF1DE83E19937733D#64 = 1#64 := by decide

/-- The values of a mixed word below which it is a drop. -/
def threshold (p : ℚ) : Nat := min ⌈p * 2 ^ 53⌉₊ (2 ^ 53) * 2 ^ 11

/-- Comparing with a probability is comparing with its threshold. -/
theorem below_iff (p : ℚ) (z : BitVec 64) :
    ((z >>> 11).toNat : ℚ) * (1 / 9007199254740992) < p ↔ z.toNat < threshold p := by
  have small := z.isLt
  rw [show (9007199254740992 : ℚ) = 2 ^ 53 by norm_num, one_div, ← div_eq_mul_inv, div_lt_iff₀ (by positivity), ← Nat.lt_ceil,
    BitVec.toNat_ushiftRight, Nat.shiftRight_eq_div_pow, threshold, Nat.div_lt_iff_lt_mul (by decide)]
  rcases Nat.le_total ⌈p * 2 ^ 53⌉₊ (2 ^ 53) with low | high
  · rw [Nat.min_eq_left low]
  · rw [Nat.min_eq_right high]
    exact iff_of_true (small.trans_le (Nat.mul_le_mul_right (2 ^ 11) high)) small

/-- What `withProbability` decides is a matter of the mixed counter. -/
theorem drops_withProbability (p : ℚ) (seed : BitVec 64) (i : Nat) :
    (withProbability p seed).drops i = decide ((mix (counter step seed (i + 1))).toNat < threshold p) := by
  by_cases likely : 0 < p
  · have here : (withProbability p seed).before i = withProbability p (counter step seed i) := by
      rw [before_eq, if_pos ⟨rfl, likely⟩]
      rfl
    rw [drops, here, shouldDrop_counting rfl likely, counter_succ]
    exact decide_eq_decide.mpr (below_iff p _)
  · have zero : threshold p = 0 := by
      rw [threshold, Nat.ceil_eq_zero.mpr (mul_nonpos_of_nonpos_of_nonneg (not_lt.mp likely) (by positivity)), Nat.zero_min,
        Nat.zero_mul]
    rw [drops_of_inactive (by simp only [active, withProbability, ne_eq, not_true_eq_false, decide_false, gt_iff_lt, likely,
      Bool.or_self]), zero]
    exact (decide_eq_false (Nat.not_lt_zero _)).symm

end

/-- The decisions of a probability, over all seeds. -/
structure FullPeriod (p : ℚ) : Prop where
  /-- Any 2^64 packets in a row lose the same number, the nearest a 53-bit fraction comes to `p` from above. -/
  exact : ∀ seed k, Nat.count (fun i => (withProbability p seed).drops (k + i)) (2 ^ 64) = threshold p
  periodic : ∀ seed i, (withProbability p seed).drops (i + 2 ^ 64) = (withProbability p seed).drops i
  /-- Every seed takes up the one pattern somewhere. -/
  shifted : ∀ seed seed', ∃ k < 2 ^ 64, ∀ i, (withProbability p seed').drops i = (withProbability p seed).drops (k + i)

/-- **Full period**, for every probability. -/
theorem withProbability_fullPeriod (p : ℚ) : FullPeriod p where
  exact := by
    intro seed k
    have shift : ∀ i, ((withProbability p seed).drops (k + i) = true) =
        ((mix (counter step (counter step seed (k + 1)) i)).toNat < threshold p) := by
      intro i
      rw [drops_withProbability, decide_eq_true_eq, ← counter_add, Nat.add_right_comm]
    have bound : threshold p ≤ 2 ^ 64 := (Nat.mul_le_mul_right (2 ^ 11) (Nat.min_le_right _ (2 ^ 53))).trans (by norm_num)
    simp only [shift]
    rw [count_period step_unit mix_injective fun z => z.toNat < threshold p, card_below, Nat.min_eq_left bound]
  periodic := by
    intro seed i
    rw [drops_withProbability, drops_withProbability, Nat.add_right_comm, counter_period]
  shifted := by
    intro seed seed'
    refine ⟨((seed' - seed) * 0xF1DE83E19937733D#64).toNat, BitVec.isLt _, fun i => ?_⟩
    rw [drops_withProbability, drops_withProbability, Nat.add_assoc, counter_add _ (i + 1), counter_reaches step_unit]

end GapInjector
end Nts.Mold
