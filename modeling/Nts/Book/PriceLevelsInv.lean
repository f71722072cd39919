import Nts.Book.PriceLevels

/-!
# The invariant of `PriceLevels`

A price is stored in its cell when it is a whole cent inside the window and in
the map otherwise; `level?` looks it up the same way. `Placed` is what the reading
operations need, `Clean` adds what the writing ones need, `Inv` what every run
from the constructor keeps. Each operation has one lemma: the invariant is kept
and `level?` changes at one price or not at all.
-/

namespace Nts.Book.PriceLevels

variable {s t : PriceLevels}

/-! ## The window -/

theorem tick_dvd (p : BitVec 32) : p % kTick = 0#32 ↔ p.toNat % 100 = 0 := by
  simp only [kTick, ← BitVec.toNat_inj, BitVec.toNat_umod, BitVec.toNat_ofNat]

/-- A price has cell `i` exactly when it is that cell's whole-cent price. -/
theorem cellOf_eq_some {p : BitVec 32} {i : Nat} : s.cellOf p = some i ↔
    s.baseCents ≠ kNoBase ∧ i < s.span.toNat ∧ p.toNat = (s.baseCents.toNat + i) * 100 := by
  have cents : (p / kTick).toNat = p.toNat / 100 := by
    rw [BitVec.toNat_udiv]
    rfl
  unfold cellOf
  by_cases unset : s.baseCents = kNoBase
  · simp [unset]
  · by_cases whole : p % kTick = 0#32
    · have whole' := (tick_dvd p).mp whole
      simp only [unset, whole, ne_eq, not_true_eq_false, or_self, if_false, not_false_eq_true, true_and]
      by_cases below : p / kTick < s.baseCents
      · have : p.toNat / 100 < s.baseCents.toNat := by
          rw [← cents]
          exact below
        simp only [below, true_or, if_true, reduceCtorEq, false_iff]
        omega
      · have least : s.baseCents ≤ p / kTick := BitVec.not_lt.mp below
        have least' : s.baseCents.toNat ≤ p.toNat / 100 := by
          rw [← cents]
          exact least
        have distance : (p / kTick - s.baseCents).toNat = p.toNat / 100 - s.baseCents.toNat := by
          rw [BitVec.toNat_sub_of_le least, cents]
        by_cases beyond : p / kTick - s.baseCents ≥ s.span
        · have : s.span.toNat ≤ p.toNat / 100 - s.baseCents.toNat := by
            rw [← distance]
            exact beyond
          simp only [beyond, or_true, if_true, reduceCtorEq, false_iff]
          omega
        · have : p.toNat / 100 - s.baseCents.toNat < s.span.toNat := by
            rw [← distance]
            exact BitVec.not_le.mp beyond
          simp only [below, beyond, or_self, if_false, Option.some.injEq, distance]
          omega
    · have broken := mt (tick_dvd p).mpr whole
      simp only [whole, ne_eq, not_false_eq_true, or_true, if_true, reduceCtorEq, false_iff]
      omega

theorem cellOf_inj {p q : BitVec 32} {i : Nat} (hp : s.cellOf p = some i) (hq : s.cellOf q = some i) : p = q := by
  obtain ⟨_, _, hp⟩ := cellOf_eq_some.mp hp
  obtain ⟨_, _, hq⟩ := cellOf_eq_some.mp hq
  exact BitVec.eq_of_toNat_eq (hp.trans hq.symm)

theorem cellOf_lt {p : BitVec 32} {i : Nat} (hp : s.cellOf p = some i) : i < s.span.toNat := (cellOf_eq_some.mp hp).2.1

/-- Without a base there are no cells. -/
theorem cellOf_unset (unset : s.baseCents = kNoBase) (p : BitVec 32) : s.cellOf p = none := by
  simp [cellOf, unset]

/-- The window around a whole-cent price, clipped or not, contains it. -/
theorem cellOf_centre {centre : BitVec 32} (whole : centre % kTick = 0#32) (wide : 64 ≤ s.span.toNat)
    (base : s.baseCents = baseAround s.span (centre / kTick)) : s.baseCents ≠ kNoBase ∧ ∃ i, s.cellOf centre = some i := by
  have whole := (tick_dvd centre).mp whole
  have cents : (centre / kTick).toNat = centre.toNat / 100 := by
    rw [BitVec.toNat_udiv]
    rfl
  have half : (s.span / 2#32).toNat = s.span.toNat / 2 := by
    rw [BitVec.toNat_udiv]
    rfl
  have baseNat : s.baseCents.toNat = centre.toNat / 100 - s.span.toNat / 2 := by
    rw [base, baseAround]
    split
    · next inside =>
      have le : s.span / 2#32 ≤ centre / kTick := by bv_omega
      rw [BitVec.toNat_sub_of_le le, cents, half]
    · next clipped =>
      have : centre / kTick ≤ s.span / 2#32 := BitVec.not_lt.mp clipped
      rw [BitVec.le_def, cents, half] at this
      rw [BitVec.toNat_ofNat]
      omega
  have set : s.baseCents ≠ kNoBase := by
    intro unset
    have := centre.isLt
    rw [unset, kNoBase, BitVec.toNat_ofNat] at baseNat
    omega
  refine ⟨set, centre.toNat / 100 - s.baseCents.toNat, ?_⟩
  rw [cellOf_eq_some]
  refine ⟨set, ?_, ?_⟩ <;> omega

/-! ## The order of the side -/

theorem better_trans {a b c : BitVec 32} (ab : s.better a b) (bc : s.better b c) : s.better a c := by
  cases side : s.side <;> simp only [better, side, decide_eq_true_eq] at ab bc ⊢ <;> bv_omega

theorem better_asymm {a b : BitVec 32} (ab : s.better a b) : ¬ s.better b a := by
  cases side : s.side <;> simp only [better, side, decide_eq_true_eq] at ab ⊢ <;> bv_omega

theorem better_total {a b : BitVec 32} (ne : a ≠ b) : s.better a b ∨ s.better b a := by
  unfold better
  cases s.side <;> simp only [decide_eq_true_eq] <;> bv_omega

theorem better_congr (side : t.side = s.side) : t.better = s.better := by
  funext a b
  simp only [better, side]

/-- Cell `i` comes before cell `j` on this side. -/
def Ahead (s : PriceLevels) (i j : Nat) : Prop :=
  match s.side with
  | .buy => i > j
  | .sell => i < j

theorem better_iff_ahead {p q : BitVec 32} {i j : Nat} (hp : s.cellOf p = some i) (hq : s.cellOf q = some j) :
    s.better p q ↔ s.Ahead i j := by
  obtain ⟨_, _, hp⟩ := cellOf_eq_some.mp hp
  obtain ⟨_, _, hq⟩ := cellOf_eq_some.mp hq
  unfold better Ahead
  cases s.side <;> simp only [decide_eq_true_eq, gt_iff_lt, BitVec.lt_def] <;> omega

theorem Ahead.trans {i j k : Nat} (ij : s.Ahead i j) (jk : s.Ahead j k) : s.Ahead i k := by
  unfold Ahead at *
  split at ij <;> simp_all <;> omega

theorem ahead_total {i j : Nat} (ne : i ≠ j) : s.Ahead i j ∨ s.Ahead j i := by
  unfold Ahead
  split <;> omega

/-! ## Cells -/

/-- Cell `i` holds a level. -/
def Occupied (s : PriceLevels) (i : Nat) : Prop := (s.cellAt i).orders ≠ 0#32

theorem Occupied.lt {i : Nat} (occupied : s.Occupied i) : i < s.cells.size := by
  by_contra out
  apply occupied
  rw [cellAt, Array.getD_eq_getD_getElem?, Array.getElem?_eq_none (by omega)]
  rfl

theorem cellAt_setCell {i : Nat} (bound : i < s.cells.size) (l : Level) (j : Nat) :
    (s.setCell i l).cellAt j = if j = i then l else s.cellAt j := by
  simp only [cellAt, setCell, Array.getD_eq_getD_getElem?, Array.getElem?_setIfInBounds]
  by_cases eq : j = i
  · subst eq
    simp [bound]
  · rw [if_neg (Ne.symm eq), if_neg eq]

theorem cellAt_setCell_of_ne {i j : Nat} (ne : j ≠ i) (l : Level) : (s.setCell i l).cellAt j = s.cellAt j := by
  simp only [cellAt, setCell, Array.getD_eq_getD_getElem?, Array.getElem?_setIfInBounds, if_neg ne.symm]

theorem beatsBest_none (cached : s.bestCell = none) (p : BitVec 32) : s.beatsBest p = true := by
  rw [beatsBest, cached]

theorem beatsBest_some {b : Nat} (cached : s.bestCell = some b) (p : BitVec 32) :
    s.beatsBest p = s.better p (s.cellAt b).price := by
  rw [beatsBest, cached]

/-- The test reads the side, the cached cell and the price in it. -/
theorem beatsBest_congr (side : t.side = s.side) (best : t.bestCell = s.bestCell)
    (price : ∀ b, s.bestCell = some b → (t.cellAt b).price = (s.cellAt b).price) : t.beatsBest = s.beatsBest := by
  funext p
  cases cached : s.bestCell with
  | none => rw [beatsBest_none cached, beatsBest_none (best.trans cached)]
  | some b => rw [beatsBest_some cached, beatsBest_some (best.trans cached), better_congr side, price b cached]

/-- Without a cell array no cell is occupied. -/
theorem cellAt_of_isEmpty (unallocated : s.cells.isEmpty) (i : Nat) : s.cellAt i = {} := by
  rw [Array.isEmpty_iff] at unallocated
  rw [cellAt, unallocated]
  rfl

theorem not_occupied_of_isEmpty (unallocated : s.cells.isEmpty) (i : Nat) : ¬ s.Occupied i := by
  rw [Occupied, cellAt_of_isEmpty unallocated]
  exact fun occupied => occupied rfl

/-- `none` when no cell is occupied, and otherwise the occupied cell that comes before all others. -/
def IsBest (s : PriceLevels) : Option Nat → Prop
  | none => ∀ i, ¬ s.Occupied i
  | some b => s.Occupied b ∧ ∀ i, s.Occupied i → i = b ∨ s.Ahead b i

/-- Cell `i` is marked in the bitmap. -/
def Marked (s : PriceLevels) (i : Nat) : Prop := Bitmap.test s.bits i = true

/-- `none` when no cell is marked, and otherwise the marked cell that comes before all others. -/
def IsFirst (s : PriceLevels) : Option Nat → Prop
  | none => ∀ i, ¬ s.Marked i
  | some b => s.Marked b ∧ ∀ i, s.Marked i → i = b ∨ s.Ahead b i

/-- `scan_best` finds the first marked cell. -/
theorem isFirst_scan (s : PriceLevels) : s.IsFirst s.scanBest := by
  have head : ∀ walk : List Nat, (∀ i, i ∈ walk ↔ Bitmap.test s.bits i = true) → walk.Pairwise s.Ahead →
      s.IsFirst walk.head? := by
    intro walk member sorted
    cases walk with
    | nil =>
      intro i marked
      exact List.not_mem_nil ((member i).mpr marked)
    | cons b rest =>
      refine ⟨(member b).mp List.mem_cons_self, ?_⟩
      intro i marked
      rcases List.mem_cons.mp ((member i).mpr marked) with eq | later
      · exact Or.inl eq
      · exact Or.inr ((List.pairwise_cons.mp sorted).1 i later)
  cases side : s.side with
  | buy =>
    simp only [scanBest, side, Bitmap.last_eq]
    exact head _ (Bitmap.mem_down _) ((Bitmap.down_sorted _).imp fun more => by simpa [Ahead, side] using more)
  | sell =>
    simp only [scanBest, side, Bitmap.first_eq]
    exact head _ (Bitmap.mem_up _) ((Bitmap.up_sorted _).imp fun less => by simpa [Ahead, side] using less)

/-- When bitmap and cells agree, the first marked cell is the best cell. -/
theorem isBest_iff_isFirst (agree : ∀ i, Bitmap.test s.bits i = true ↔ s.Occupied i) (best : Option Nat) :
    s.IsBest best ↔ s.IsFirst best := by
  cases best with
  | none => exact forall_congr' fun i => not_congr (agree i).symm
  | some b => exact and_congr (agree b).symm (forall_congr' fun i => imp_congr_left (agree i).symm)

/-- Every level sits where its price belongs, and bitmap, count and cached best are right. -/
structure Placed (s : PriceLevels) : Prop where
  words : 64 ≤ s.span.toNat ∧ s.span.toNat % 64 = 0
  storage : s.cells.size = 0 ∧ s.bits.size = 0 ∨ s.cells.size = s.span.toNat ∧ s.bits.size * 64 = s.span.toNat
  bits : ∀ i, Bitmap.test s.bits i = true ↔ s.Occupied i
  price : ∀ i, s.Occupied i → s.cellOf (s.cellAt i).price = some i
  count : s.arrayCount = (Bitmap.up s.bits).length
  best : s.IsBest s.bestCell
  far : ∀ p l, s.far[p]? = some l → l.price = p ∧ l.orders ≠ 0#32 ∧ s.cellOf p = none

/-- No shares are left behind in a cell without a level. -/
structure Clean (s : PriceLevels) : Prop extends Placed s where
  blank : ∀ i, ¬ s.Occupied i → (s.cellAt i).shares = 0#64

/-- What holds after every call: also, only whole-cent prices wait for a first window. -/
structure Inv (s : PriceLevels) : Prop extends Clean s where
  unset : s.baseCents = kNoBase → ∀ p l, s.far[p]? = some l → p % kTick ≠ 0#32

/-- The cell array exists. -/
def Allocated (s : PriceLevels) : Prop := s.cells.size = s.span.toNat

theorem Placed.words_allocated (placed : Placed s) (allocated : s.Allocated) : s.bits.size * 64 = s.cells.size := by
  rcases placed.storage with ⟨unallocated, _⟩ | ⟨cells, bits⟩
  · have := placed.words.1
    rw [Allocated] at allocated
    omega
  · rw [cells, bits]

/-! ## Lookup -/

/-- The level stored under a price. -/
def level? (s : PriceLevels) (price : BitVec 32) : Option Level :=
  match s.cellOf price with
  | some i => if (s.cellAt i).orders = 0#32 then none else some (s.cellAt i)
  | none => s.far[price]?

theorem level?_cell {p : BitVec 32} {i : Nat} (cell : s.cellOf p = some i) (occupied : s.Occupied i) :
    s.level? p = some (s.cellAt i) := by
  simp only [level?, cell]
  rw [if_neg occupied]

theorem level?_free {p : BitVec 32} {i : Nat} (cell : s.cellOf p = some i) (free : ¬ s.Occupied i) :
    s.level? p = none := by
  simp only [level?, cell]
  rw [if_pos (not_not.mp free)]

theorem level?_far {p : BitVec 32} (outside : s.cellOf p = none) : s.level? p = s.far[p]? := by
  simp only [level?, outside]

/-- A level is stored in an occupied cell or in the map, under its own price. -/
theorem Placed.level?_eq_some (placed : Placed s) {p : BitVec 32} {l : Level} : s.level? p = some l ↔
    (∃ i, s.Occupied i ∧ s.cellAt i = l ∧ l.price = p) ∨ s.far[p]? = some l := by
  constructor
  · intro stored
    cases cell : s.cellOf p with
    | none => exact Or.inr ((level?_far cell).symm.trans stored)
    | some i =>
      have occupied : s.Occupied i := by
        by_contra free
        rw [level?_free cell free] at stored
        cases stored
      rw [level?_cell cell occupied] at stored
      obtain rfl := Option.some.inj stored
      exact Or.inl ⟨i, occupied, rfl, cellOf_inj (placed.price i occupied) cell⟩
  · rintro (⟨i, occupied, rfl, rfl⟩ | far)
    · exact level?_cell (placed.price i occupied) occupied
    · rw [level?_far (placed.far p l far).2.2, far]

theorem Placed.level?_valid (placed : Placed s) {p : BitVec 32} {l : Level} (stored : s.level? p = some l) :
    l.price = p ∧ l.orders ≠ 0#32 := by
  rcases placed.level?_eq_some.mp stored with ⟨i, occupied, rfl, price⟩ | far
  · exact ⟨price, occupied⟩
  · exact ⟨(placed.far p l far).1, (placed.far p l far).2.1⟩

/-- A price with a cell that stores nothing has a free cell. -/
theorem free_of_absent {p : BitVec 32} {i : Nat} (cell : s.cellOf p = some i)
    (absent : s.level? p = none) : ¬ s.Occupied i := by
  intro occupied
  rw [level?_cell cell occupied] at absent
  cases absent

end Nts.Book.PriceLevels
