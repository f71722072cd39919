import Mathlib

/-!
# Bitmaps of 64-bit words

A set of natural numbers as an array of words: number `i` is bit `i mod 64` of
word `i / 64`. `wordUp` and `wordDown` are the two usual loops over the set bits of a
word (lowest first, clearing it with `w & (w - 1)`; highest first, clearing it by
its mask), `up` and `down` the walks over the whole array, `first` and `last`
the scans for one end. Membership in a walk is `test`, and each walk is sorted.
-/

namespace Bitmap

/-- Is `i` in the set? -/
def test (bits : Array (BitVec 64)) (i : Nat) : Bool := (bits.getD (i >>> 6) 0#64).getLsbD (i &&& 63)

/-- Put `i` into the set. -/
def set (bits : Array (BitVec 64)) (i : Nat) : Array (BitVec 64) :=
  bits.setIfInBounds (i >>> 6) (bits.getD (i >>> 6) 0#64 ||| 1#64 <<< (i &&& 63))

/-- Take `i` out of the set. -/
def clear (bits : Array (BitVec 64)) (i : Nat) : Array (BitVec 64) :=
  bits.setIfInBounds (i >>> 6) (bits.getD (i >>> 6) 0#64 &&& ~~~(1#64 <<< (i &&& 63)))

/-- The set bits of a word, lowest first. -/
def wordUp : Nat → BitVec 64 → List Nat
  | 0, _ => []
  | fuel + 1, w => if w = 0#64 then [] else w.ctz.toNat :: wordUp fuel (w &&& (w - 1#64))

/-- The set bits of a word, highest first. -/
def wordDown : Nat → BitVec 64 → List Nat
  | 0, _ => []
  | fuel + 1, w =>
    if w = 0#64 then []
    else (63 - w.clz.toNat) :: wordDown fuel (w &&& ~~~(1#64 <<< (63 - w.clz.toNat)))

/-- The set, lowest first. -/
def up (bits : Array (BitVec 64)) : List Nat :=
  (List.range bits.size).flatMap fun w => (wordUp 64 (bits.getD w 0#64)).map fun bit => w * 64 + bit

/-- The set, highest first. -/
def down (bits : Array (BitVec 64)) : List Nat :=
  (List.range bits.size).reverse.flatMap fun w => (wordDown 64 (bits.getD w 0#64)).map fun bit => w * 64 + bit

/-- The least element: the lowest set bit of the first word that is not zero. -/
def first (bits : Array (BitVec 64)) : Option Nat :=
  (List.range bits.size).findSome? fun w =>
    if bits.getD w 0#64 ≠ 0#64 then some (w * 64 + (bits.getD w 0#64).ctz.toNat) else none

/-- The greatest element: the highest set bit of the last word that is not zero. -/
def last (bits : Array (BitVec 64)) : Option Nat :=
  (List.range bits.size).reverse.findSome? fun w =>
    if bits.getD w 0#64 ≠ 0#64 then some (w * 64 + 63 - (bits.getD w 0#64).clz.toNat) else none

/-! ## Words -/

theorem ctz_lt {w : BitVec 64} (nonzero : w ≠ 0#64) : w.ctz.toNat < 64 := by
  have := BitVec.ctz_lt_iff_ne_zero.mpr nonzero
  simpa [BitVec.lt_def] using this

theorem clz_lt {w : BitVec 64} (nonzero : w ≠ 0#64) : w.clz.toNat < 64 := by
  have := BitVec.clz_lt_iff_ne_zero.mpr nonzero
  simpa [BitVec.lt_def] using this

theorem getLsbD_mask (k i : Nat) (hk : k < 64) : (1#64 <<< k).getLsbD i = decide (i = k) := by
  simp only [BitVec.getLsbD_shiftLeft, BitVec.getLsbD_one]
  by_cases eq : i = k
  · subst eq
    simp [hk]
  · simp only [eq, decide_false]
    by_cases less : i < k
    · simp [less]
    · have : ¬ i - k = 0 := by omega
      simp [this]

/-- `w & (w - 1)` clears the lowest set bit and nothing else. -/
theorem getLsbD_clearLowest {w : BitVec 64} (nonzero : w ≠ 0#64) (i : Nat) :
    (w &&& (w - 1#64)).getLsbD i = (w.getLsbD i && decide (i ≠ w.ctz.toNat)) := by
  -- the word is `2 ^ (c + 1) * q + 2 ^ c` with `c` its trailing zeros
  obtain ⟨c, hc⟩ : ∃ c, c = w.ctz.toNat := ⟨_, rfl⟩
  have here : w.toNat.testBit c = true := by
    rw [hc]
    exact BitVec.getLsbD_true_ctz_of_ne_zero nonzero
  have low : w.toNat % 2 ^ c = 0 := by
    apply Nat.eq_of_testBit_eq
    intro j
    rw [Nat.testBit_mod_two_pow, Nat.zero_testBit]
    by_cases less : j < c
    · have := BitVec.getLsbD_false_of_lt_ctz (x := w) (hc ▸ less)
      rw [BitVec.getLsbD] at this
      simp [less, this]
    · simp [less]
  have odd : w.toNat / 2 ^ c % 2 = 1 := by
    rw [Nat.testBit_eq_decide_div_mod_eq] at here
    simpa using here
  obtain ⟨q, shape⟩ : ∃ q, w.toNat = 2 ^ (c + 1) * q + 2 ^ c := by
    refine ⟨w.toNat / 2 ^ c / 2, ?_⟩
    have split := Nat.div_add_mod w.toNat (2 ^ c)
    have halve := Nat.div_add_mod (w.toNat / 2 ^ c) 2
    rw [low, Nat.add_zero] at split
    rw [odd] at halve
    calc w.toNat = 2 ^ c * (w.toNat / 2 ^ c) := split.symm
      _ = 2 ^ c * (2 * (w.toNat / 2 ^ c / 2) + 1) := by rw [halve]
      _ = 2 ^ (c + 1) * (w.toNat / 2 ^ c / 2) + 2 ^ c := by rw [pow_succ]; ring
  have pos : 0 < 2 ^ c := by positivity
  have pred : (w - 1#64).toNat = 2 ^ (c + 1) * q + (2 ^ c - 1) := by
    have le : 1#64 ≤ w := by
      rw [BitVec.le_def, shape]
      simp only [BitVec.toNat_ofNat]
      omega
    rw [BitVec.toNat_sub_of_le le, shape]
    simp only [BitVec.toNat_ofNat]
    omega
  rw [BitVec.getLsbD_and, BitVec.getLsbD, BitVec.getLsbD, pred, ← hc, shape,
    Nat.testBit_two_pow_mul_add q (by rw [pow_succ]; omega), Nat.testBit_two_pow_mul_add q (by rw [pow_succ]; omega)]
  by_cases less : i < c + 1
  · simp only [less, if_true, Nat.testBit_two_pow, Nat.testBit_two_pow_sub_one]
    by_cases eq : i = c
    · simp [eq]
    · simp [eq, Ne.symm eq]
  · have ne : i ≠ c := by omega
    simp [less, ne]

/-- The number of set bits, the measure of both loops. -/
def count (w : BitVec 64) : Nat := ((Finset.range 64).filter fun i => w.getLsbD i).card

theorem count_le (w : BitVec 64) : count w ≤ 64 := by
  have := Finset.card_filter_le (Finset.range 64) fun i => w.getLsbD i
  simpa [count] using this

theorem count_erase {w w' : BitVec 64} {k : Nat} (hk : k < 64) (here : w.getLsbD k = true)
    (bits : ∀ i, w'.getLsbD i = (w.getLsbD i && decide (i ≠ k))) : count w' + 1 = count w := by
  have same : ((Finset.range 64).filter fun i => w'.getLsbD i) =
      ((Finset.range 64).filter fun i => w.getLsbD i).erase k := by
    ext i
    simp only [Finset.mem_filter, Finset.mem_erase, bits i, Bool.and_eq_true, decide_eq_true_eq]
    tauto
  rw [count, same]
  exact Finset.card_erase_add_one (by simp [hk, here])

theorem wordUp_spec :
    ∀ fuel w, count w ≤ fuel → (wordUp fuel w).Pairwise (· < ·) ∧ ∀ i, i ∈ wordUp fuel w ↔ w.getLsbD i = true := by
  intro fuel
  induction fuel with
  | zero =>
    intro w spent
    refine ⟨.nil, fun i => ?_⟩
    have empty := Finset.card_eq_zero.mp (Nat.le_zero.mp spent)
    simp only [wordUp, List.not_mem_nil, false_iff]
    intro here
    have bound := BitVec.lt_of_getLsbD here
    have : i ∈ (Finset.range 64).filter fun i => w.getLsbD i := by simp [bound, here]
    rw [empty] at this
    exact Finset.notMem_empty i this
  | succ fuel ih =>
    intro w enough
    unfold wordUp
    by_cases zero : w = 0#64
    · simp [zero]
    · rw [if_neg zero]
      have here := BitVec.getLsbD_true_ctz_of_ne_zero zero
      have fewer := count_erase (ctz_lt zero) here (getLsbD_clearLowest zero)
      obtain ⟨sorted, member⟩ := ih (w &&& (w - 1#64)) (by omega)
      refine ⟨List.pairwise_cons.mpr ⟨?_, sorted⟩, ?_⟩
      · intro i hi
        rw [member, getLsbD_clearLowest zero, Bool.and_eq_true, decide_eq_true_eq] at hi
        have notBelow : ¬ i < w.ctz.toNat := fun below => by
          rw [BitVec.getLsbD_false_of_lt_ctz below] at hi
          exact Bool.false_ne_true hi.1
        omega
      · intro i
        rw [List.mem_cons, member, getLsbD_clearLowest zero, Bool.and_eq_true, decide_eq_true_eq]
        constructor
        · rintro (rfl | ⟨set, _⟩)
          · exact here
          · exact set
        · intro set
          by_cases eq : i = w.ctz.toNat
          · exact Or.inl eq
          · exact Or.inr ⟨set, eq⟩

theorem wordDown_spec :
    ∀ fuel w, count w ≤ fuel → (wordDown fuel w).Pairwise (· > ·) ∧ ∀ i, i ∈ wordDown fuel w ↔ w.getLsbD i = true := by
  intro fuel
  induction fuel with
  | zero =>
    intro w spent
    refine ⟨.nil, fun i => ?_⟩
    rw [← (wordUp_spec 0 w spent).2]
    rfl
  | succ fuel ih =>
    intro w enough
    unfold wordDown
    by_cases zero : w = 0#64
    · simp [zero]
    · rw [if_neg zero]
      have bound : 63 - w.clz.toNat < 64 := by omega
      have here : w.getLsbD (63 - w.clz.toNat) = true := BitVec.getLsbD_true_clz_of_ne_zero (by decide) zero
      have cleared : ∀ i, (w &&& ~~~(1#64 <<< (63 - w.clz.toNat))).getLsbD i =
          (w.getLsbD i && decide (i ≠ 63 - w.clz.toNat)) := by
        intro i
        rw [BitVec.getLsbD_and, BitVec.getLsbD_not, getLsbD_mask _ _ bound]
        by_cases inside : i < 64
        · simp [inside]
        · simp [BitVec.getLsbD_of_ge w i (by omega)]
      have fewer := count_erase bound here cleared
      obtain ⟨sorted, member⟩ := ih (w &&& ~~~(1#64 <<< (63 - w.clz.toNat))) (by omega)
      refine ⟨List.pairwise_cons.mpr ⟨?_, sorted⟩, ?_⟩
      · intro i hi
        rw [member, cleared, Bool.and_eq_true, decide_eq_true_eq] at hi
        -- no bit above the highest one is set
        have below : i < 64 - w.clz.toNat := by
          by_contra above
          have small := BitVec.toNat_lt_two_pow_sub_clz (x := w)
          have big := Nat.ge_two_pow_of_testBit hi.1
          have := Nat.pow_le_pow_right (n := 2) (by omega) (Nat.not_lt.mp above)
          omega
        have := clz_lt zero
        omega
      · intro i
        rw [List.mem_cons, member, cleared, Bool.and_eq_true, decide_eq_true_eq]
        constructor
        · rintro (rfl | ⟨set, _⟩)
          · exact here
          · exact set
        · intro set
          by_cases eq : i = 63 - w.clz.toNat
          · exact Or.inl eq
          · exact Or.inr ⟨set, eq⟩

/-! ## Arrays of words -/

theorem test_eq (bits : Array (BitVec 64)) (i : Nat) :
    test bits i = (bits.getD (i / 64) 0#64).getLsbD (i % 64) := by
  rw [test, Nat.shiftRight_eq_div_pow, show (63 : Nat) = 2 ^ 6 - 1 from rfl, Nat.and_two_pow_sub_one_eq_mod]

theorem size_set (bits : Array (BitVec 64)) (i : Nat) : (set bits i).size = bits.size := Array.size_setIfInBounds

theorem size_clear (bits : Array (BitVec 64)) (i : Nat) : (clear bits i).size = bits.size := Array.size_setIfInBounds

/-- Numbers beyond the last word are not in the set. -/
theorem lt_of_test {bits : Array (BitVec 64)} {i : Nat} (member : test bits i = true) : i < bits.size * 64 := by
  rw [test_eq] at member
  by_contra out
  have : bits.getD (i / 64) 0#64 = 0#64 := by
    rw [Array.getD_eq_getD_getElem?, Array.getElem?_eq_none (by omega)]
    rfl
  simp [this] at member

theorem test_write (bits : Array (BitVec 64)) (i j : Nat) (w : BitVec 64) (bound : i / 64 < bits.size) :
    test (bits.setIfInBounds (i >>> 6) w) j = if j / 64 = i / 64 then w.getLsbD (j % 64) else test bits j := by
  rw [test_eq, test_eq, Nat.shiftRight_eq_div_pow, Array.getD_eq_getD_getElem?, Array.getElem?_setIfInBounds,
    Array.getD_eq_getD_getElem?]
  by_cases eq : j / 64 = i / 64
  · simp [eq, bound]
  · rw [if_neg eq, if_neg (by simpa using Ne.symm eq)]

theorem test_set {bits : Array (BitVec 64)} {i : Nat} (bound : i < bits.size * 64) (j : Nat) :
    test (set bits i) j = (decide (j = i) || test bits j) := by
  have mask : i &&& 63 = i % 64 := Nat.and_two_pow_sub_one_eq_mod i 6
  rw [set, test_write _ _ _ _ (by omega), mask, Nat.shiftRight_eq_div_pow, test_eq, BitVec.getLsbD_or,
    getLsbD_mask _ _ (by omega)]
  by_cases same : j / 64 = i / 64
  · have bit : (j % 64 = i % 64) = (j = i) := by apply propext; omega
    simp [same, bit, Bool.or_comm]
  · have ne : j ≠ i := by rintro rfl; exact same rfl
    simp [same, ne]

/-- Outside the words there is nothing to clear. -/
theorem test_clear (bits : Array (BitVec 64)) (i j : Nat) : test (clear bits i) j = (!decide (j = i) && test bits j) := by
  have mask : i &&& 63 = i % 64 := Nat.and_two_pow_sub_one_eq_mod i 6
  by_cases bound : i < bits.size * 64
  · rw [clear, test_write _ _ _ _ (by omega), mask, Nat.shiftRight_eq_div_pow, test_eq, BitVec.getLsbD_and,
      BitVec.getLsbD_not, getLsbD_mask _ _ (by omega)]
    by_cases same : j / 64 = i / 64
    · have bit : (j % 64 = i % 64) = (j = i) := by apply propext; omega
      have inside : j % 64 < 64 := by omega
      simp [same, bit, inside, Bool.and_comm]
    · have ne : j ≠ i := by rintro rfl; exact same rfl
      simp [same, ne]
  · have out : bits.size ≤ i >>> 6 := by
      rw [Nat.shiftRight_eq_div_pow]
      omega
    rw [clear, Array.setIfInBounds_eq_of_size_le out]
    by_cases eq : j = i
    · subst eq
      have absent : test bits j = false := Bool.eq_false_iff.mpr fun member => bound (lt_of_test member)
      rw [absent, Bool.and_false]
    · simp [eq]

theorem test_replicate (n i : Nat) : test (Array.replicate n 0#64) i = false := by
  rw [test_eq, Array.getD_eq_getD_getElem?, Array.getElem?_replicate]
  split <;> simp

/-- A number is listed by a walk over the words exactly when it is in the set. -/
theorem mem_walk {bits : Array (BitVec 64)} {walk : BitVec 64 → List Nat}
    (spec : ∀ w i, i ∈ walk w ↔ w.getLsbD i = true) {words : List Nat} (all : ∀ w, w ∈ words ↔ w < bits.size) (i : Nat) :
    i ∈ words.flatMap (fun w => (walk (bits.getD w 0#64)).map fun bit => w * 64 + bit) ↔ test bits i = true := by
  rw [test_eq]
  simp only [List.mem_flatMap, List.mem_map, spec, all]
  constructor
  · rintro ⟨w, _, bit, set, rfl⟩
    have bound := BitVec.lt_of_getLsbD set
    rw [show (w * 64 + bit) / 64 = w by omega, show (w * 64 + bit) % 64 = bit by omega]
    exact set
  · intro member
    have bound := lt_of_test ((test_eq bits i).trans member)
    exact ⟨i / 64, by omega, i % 64, member, by omega⟩

theorem mem_up (bits : Array (BitVec 64)) (i : Nat) : i ∈ up bits ↔ test bits i = true :=
  mem_walk (fun w => (wordUp_spec 64 w (count_le w)).2) (fun _ => List.mem_range) i

theorem mem_down (bits : Array (BitVec 64)) (i : Nat) : i ∈ down bits ↔ test bits i = true :=
  mem_walk (fun w => (wordDown_spec 64 w (count_le w)).2) (fun _ => by simp) i

theorem up_sorted (bits : Array (BitVec 64)) : (up bits).Pairwise (· < ·) := by
  apply List.pairwise_flatMap.mpr
  constructor
  · intro w _
    exact List.pairwise_map.mpr ((wordUp_spec 64 _ (count_le _)).1.imp fun less => by omega)
  · apply List.pairwise_lt_range.imp
    intro w w' less i hi j hj
    obtain ⟨bit, set, rfl⟩ := List.mem_map.mp hi
    obtain ⟨bit', set', rfl⟩ := List.mem_map.mp hj
    have bound := BitVec.lt_of_getLsbD (((wordUp_spec 64 _ (count_le _)).2 bit).mp set)
    omega

theorem down_sorted (bits : Array (BitVec 64)) : (down bits).Pairwise (· > ·) := by
  apply List.pairwise_flatMap.mpr
  constructor
  · intro w _
    exact List.pairwise_map.mpr ((wordDown_spec 64 _ (count_le _)).1.imp fun less => by omega)
  · apply List.pairwise_reverse.mpr
    apply List.pairwise_lt_range.imp
    intro w w' less i hi j hj
    obtain ⟨bit, set, rfl⟩ := List.mem_map.mp hi
    obtain ⟨bit', set', rfl⟩ := List.mem_map.mp hj
    have bound := BitVec.lt_of_getLsbD (((wordDown_spec 64 _ (count_le _)).2 bit').mp set')
    omega

theorem up_replicate (n : Nat) : up (Array.replicate n 0#64) = [] := by
  apply List.eq_nil_iff_forall_not_mem.mpr
  intro i member
  rw [mem_up, test_replicate] at member
  cases member

/-- A list of the numbers with a bit is as long as the walk. -/
theorem length_up {bits : Array (BitVec 64)} {l : List Nat} (nodup : l.Nodup)
    (same : ∀ i, i ∈ l ↔ test bits i = true) : l.length = (up bits).length := by
  have distinct : (up bits).Nodup := (up_sorted bits).imp fun less => Nat.ne_of_lt less
  exact ((List.perm_ext_iff_of_nodup nodup distinct).mpr fun i => (same i).trans (mem_up bits i).symm).length_eq

/-- Adding an absent number lengthens the walk by one. -/
theorem length_up_set {bits : Array (BitVec 64)} {i : Nat} (bound : i < bits.size * 64) (absent : test bits i = false) :
    (up (set bits i)).length = (up bits).length + 1 := by
  have distinct : (up bits).Nodup := (up_sorted bits).imp fun less => Nat.ne_of_lt less
  have fresh : i ∉ up bits := by
    rw [mem_up, absent]
    exact Bool.false_ne_true
  rw [← length_up (List.nodup_cons.mpr ⟨fresh, distinct⟩), List.length_cons]
  intro j
  rw [List.mem_cons, mem_up, test_set bound, Bool.or_eq_true, decide_eq_true_eq]

/-- Taking a number out shortens the walk by one. -/
theorem length_up_clear {bits : Array (BitVec 64)} {i : Nat} (member : test bits i = true) :
    (up (clear bits i)).length + 1 = (up bits).length := by
  have bound : i < (clear bits i).size * 64 := by
    rw [size_clear]
    exact lt_of_test member
  have absent : test (clear bits i) i = false := by
    rw [test_clear]
    simp
  have back := length_up_set bound absent
  have same : (up (set (clear bits i) i)).length = (up bits).length := by
    apply length_up ((up_sorted _).imp fun less => Nat.ne_of_lt less)
    intro j
    rw [mem_up, test_set bound, test_clear]
    by_cases eq : j = i
    · subst eq
      simp [member]
    · simp [eq]
  omega

/-- The forward scan finds the head of the forward walk. -/
theorem first_eq (bits : Array (BitVec 64)) : first bits = (up bits).head? := by
  rw [up, List.head?_flatMap, first]
  congr 1
  funext w
  by_cases zero : bits.getD w 0#64 = 0#64
  · rw [zero]
    rfl
  · rw [if_pos zero, wordUp, if_neg zero]
    rfl

/-- The backward scan finds the head of the backward walk. -/
theorem last_eq (bits : Array (BitVec 64)) : last bits = (down bits).head? := by
  rw [down, List.head?_flatMap, last]
  congr 1
  funext w
  by_cases zero : bits.getD w 0#64 = 0#64
  · rw [zero]
    rfl
  · rw [if_pos zero, wordDown, if_neg zero]
    have := clz_lt zero
    simp only [List.map_cons, List.head?_cons, Option.some.injEq]
    omega

end Bitmap
