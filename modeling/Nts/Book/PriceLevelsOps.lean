import Nts.Book.PriceLevelsWrites

/-!
# The operations of `PriceLevels`

One lemma for each operation that writes: `add`, `reduce` and `remove` keep the
invariant and change the level at their price only, `reserve` changes none.
-/

namespace Nts.Book.PriceLevels

variable {s : PriceLevels}

/-! ## Construction and allocation -/

theorem inv_new (side : Side) (referencePrice tickSpan : BitVec 32) (least : 64 ≤ tickSpan.toNat)
    (multiple : tickSpan.toNat % 64 = 0) :
    Inv (new side referencePrice tickSpan) ∧ ∀ p, (new side referencePrice tickSpan).level? p = none := by
  have noFar : ∀ p : BitVec 32, (new side referencePrice tickSpan).far[p]? = none := fun p => Std.TreeMap.getElem?_emptyc
  have free : ∀ i, ¬ (new side referencePrice tickSpan).Occupied i := not_occupied_of_isEmpty rfl
  refine ⟨⟨⟨⟨⟨least, multiple⟩, Or.inl ⟨rfl, rfl⟩, ?_, ?_, rfl, free, ?_⟩, ?_⟩, ?_⟩, ?_⟩
  · intro i
    simp only [free i, iff_false, Bool.not_eq_true]
    exact Bitmap.test_replicate 0 i
  · exact fun i occupied => (free i occupied).elim
  · intro p l stored
    rw [noFar] at stored
    cases stored
  · intro i _
    rw [cellAt_of_isEmpty rfl]
    rfl
  · intro _ p l stored
    rw [noFar] at stored
    cases stored
  · intro p
    cases cell : (new side referencePrice tickSpan).cellOf p with
    | none => rw [level?_far cell, noFar]
    | some i => exact level?_free cell (free i)

theorem Inv.reserve (inv : Inv s) : Inv s.reserve ∧ s.reserve.level? = s.level? := by
  refine ⟨⟨inv.toClean.ensureCells.1, ?_⟩, ensureCells_level? s⟩
  intro unset p l stored
  rw [PriceLevels.reserve, ensureCells_far] at stored
  rw [PriceLevels.reserve, ensureCells_baseCents] at unset
  exact inv.unset unset p l stored

/-! ## `add` -/

/-- The first whole-cent price fixes the window; nothing moves. -/
theorem Inv.setBase (inv : Inv s) (price : BitVec 32) : Inv (s.setBase price) ∧ (s.setBase price).level? = s.level? ∧
    (price % kTick = 0#32 → (s.setBase price).baseCents ≠ kNoBase) := by
  obtain ⟨windowed, listed, set⟩ := inv.windowed.setBase price
  have kept : (s.setBase price).cells = s.cells ∧ (s.setBase price).bits = s.bits ∧
      (s.setBase price).arrayCount = s.arrayCount ∧ (s.setBase price).far = s.far := by
    unfold PriceLevels.setBase
    split <;> exact ⟨rfl, rfl, rfl, rfl⟩
  obtain ⟨cells, bits, count, far⟩ := kept
  have read : (s.setBase price).cellAt = s.cellAt := by
    funext i
    rw [cellAt, cells, ← cellAt]
  have placed : Placed (s.setBase price) := by
    refine windowed.placed ?_ ?_ ?_
    · intro i
      rw [Marked, bits, Occupied, read]
      exact inv.bits i
    · rw [count, bits]
      exact inv.count
    · rw [far]
      exact fun p l stored => (inv.far p l stored).2.1
  refine ⟨⟨⟨placed, fun i free => ?_⟩, windowed.unset⟩, ?_, set⟩
  · rw [Occupied, read] at free
    rw [read]
    exact inv.blank i free
  · rw [← placed.listed_eq, listed, inv.listed_eq]

/-- The level after one more order of `shares` at `price`. -/
def credit (l : Option Level) (price shares : BitVec 32) : Level :=
  ⟨price, (l.getD {}).shares + shares.setWidth 64, (l.getD {}).orders + 1#32⟩

/-- Opening a cell and then writing its first order is one `occupy`. -/
theorem openCell_write {i : Nat} (notBest : ∀ b, s.bestCell = some b → b ≠ i) (l : Level) :
    (s.openCell i l.price).setCell i l = s.occupy i l := by
  have same : ∀ l' : Level, beatsBest { (s.setCell i l').setBit i with
      arrayCount := ((s.setCell i l').setBit i).arrayCount + 1 } = s.beatsBest := by
    intro l'
    refine beatsBest_congr rfl rfl fun b cached => congrArg Level.price ?_
    exact cellAt_setCell_of_ne (notBest b cached) l'
  simp only [openCell, occupy, same]
  split <;> simp [setCell, setBit]

/-- The part of `add` that credits the level of an occupied cell: one write. -/
theorem Clean.credited (clean : Clean s) {price : BitVec 32} (shares : BitVec 32) {i : Nat} (cell : s.cellOf price = some i)
    (occupied : s.Occupied i) (room : ((s.level? price).getD {}).orders + 1#32 ≠ 0#32) {t : PriceLevels}
    (shape : t = s.setCell i { s.cellAt i with
      shares := (s.cellAt i).shares + shares.setWidth 64, orders := (s.cellAt i).orders + 1#32 }) :
    Inv t ∧ t.level? = Function.update s.level? price (some (credit (s.level? price) price shares)) := by
  have here := level?_cell cell occupied
  have keep := cellOf_inj (clean.price i occupied) cell
  simp only [here, Option.getD_some] at room
  rw [shape, here, credit, Option.getD_some]
  have written : (⟨price, (s.cellAt i).shares + shares.setWidth 64, (s.cellAt i).orders + 1#32⟩ : Level) =
      { s.cellAt i with shares := (s.cellAt i).shares + shares.setWidth 64, orders := (s.cellAt i).orders + 1#32 } := by
    rw [← keep]
  rw [← written]
  obtain ⟨clean', level⟩ := clean.rewrite occupied (l := ⟨price, (s.cellAt i).shares + shares.setWidth 64,
    (s.cellAt i).orders + 1#32⟩) keep.symm room
  exact ⟨⟨clean', fun unset => ((cellOf_eq_some.mp cell).1 unset).elim⟩, level⟩

/-- The part of `add` that gives a free cell its first order: the cell is opened and then written. -/
theorem Clean.opened (clean : Clean s) (allocated : s.Allocated) {price : BitVec 32} (shares : BitVec 32) {i : Nat}
    (cell : s.cellOf price = some i) (free : ¬ s.Occupied i) {t : PriceLevels}
    (shape : t = (s.openCell i price).setCell i { (s.openCell i price).cellAt i with
      shares := ((s.openCell i price).cellAt i).shares + shares.setWidth 64
      orders := ((s.openCell i price).cellAt i).orders + 1#32 }) :
    Inv t ∧ t.level? = Function.update s.level? price (some (credit (s.level? price) price shares)) := by
  have vacant := not_not.mp free
  have bound : i < s.cells.size := by
    rw [allocated]
    exact cellOf_lt cell
  have here := level?_free cell free
  have opened : ((s.openCell i price).cellAt i) = { s.cellAt i with price } := by
    have read := cellAt_setCell bound { s.cellAt i with price } i
    rw [if_pos rfl] at read
    rw [← read]
    unfold openCell
    dsimp only
    split <;> rfl
  have notBest : ∀ b, s.bestCell = some b → b ≠ i := by
    rintro b cached rfl
    have best := clean.best
    rw [cached] at best
    exact free best.1
  have write : t = s.occupy i ⟨price, 0#64 + shares.setWidth 64, 0#32 + 1#32⟩ := by
    rw [shape, opened]
    dsimp only
    rw [clean.blank i free, vacant]
    exact openCell_write notBest ⟨price, 0#64 + shares.setWidth 64, 0#32 + 1#32⟩
  have one : 0#32 + 1#32 ≠ 0#32 := by decide
  obtain ⟨clean', level⟩ := clean.occupy allocated (l := ⟨price, 0#64 + shares.setWidth 64, 0#32 + 1#32⟩) cell free one
  rw [write, here]
  refine ⟨⟨clean', fun unset => ?_⟩, level⟩
  exact ((cellOf_eq_some.mp cell).1 ((occupy_baseCents s i _).symm.trans unset)).elim

/-- The part of `add` that credits a level of the map, and re-centres on it if that is the new best price. -/
theorem Inv.addFar (inv : Inv s) {price : BitVec 32} (shares : BitVec 32) (set : price % kTick = 0#32 → s.baseCents ≠ kNoBase)
    (cell : s.cellOf price = none) (room : ((s.level? price).getD {}).orders + 1#32 ≠ 0#32) {t : PriceLevels}
    (shape : t = { s with far := s.far.insert price (credit (s.level? price) price shares) }) :
    Inv (if price % kTick = 0#32 ∧ t.beatsBest price then t.rebase price else t) ∧
      (if price % kTick = 0#32 ∧ t.beatsBest price then t.rebase price else t).level? =
        Function.update s.level? price (some (credit (s.level? price) price shares)) := by
  have clean : Clean t := by
    rw [shape]
    exact inv.toClean.farInsert (l := credit (s.level? price) price shares) cell room
  have level : t.level? = Function.update s.level? price (some (credit (s.level? price) price shares)) := by
    rw [shape]
    exact inv.toClean.level?_farInsert (l := credit (s.level? price) price shares) cell room
  split
  · next centre =>
    obtain ⟨clean', kept⟩ := clean.rebase price
    exact ⟨⟨clean', fun unset => ((clean.marks.rebase_centre centre.1).1 unset).elim⟩, kept.trans level⟩
  · refine ⟨⟨clean, fun unset p l here => ?_⟩, level⟩
    rw [shape] at unset here
    rw [Std.TreeMap.getElem?_insert_ite] at here
    split at here
    · next eq =>
      rw [eq]
      exact fun whole => set whole unset
    · exact inv.unset unset p l here

/-- **`add`** credits one order to its level, which it creates if needed. -/
theorem Inv.add (inv : Inv s) {price : BitVec 32} (shares : BitVec 32)
    (room : ((s.level? price).getD {}).orders + 1#32 ≠ 0#32) :
    Inv (s.add price shares) ∧
      (s.add price shares).level? = Function.update s.level? price (some (credit (s.level? price) price shares)) := by
  obtain ⟨inv', level, set⟩ := inv.setBase price
  rw [← level] at room ⊢
  unfold PriceLevels.add
  generalize s.setBase price = s at inv' level set room
  cases cell : s.cellOf price with
  | some i =>
    simp only [cell]
    obtain ⟨clean, allocated⟩ := inv'.toClean.ensureCells
    have cell' : s.ensureCells.cellOf price = some i := by rw [ensureCells_cellOf, cell]
    rw [← ensureCells_level? s] at room ⊢
    by_cases occupied : s.ensureCells.Occupied i
    · rw [if_neg occupied]
      exact clean.credited shares cell' occupied room rfl
    · rw [if_pos (not_not.mp occupied)]
      exact clean.opened allocated shares cell' occupied rfl
  | none =>
    simp only [cell]
    have entry : s.far.getD price {} = (s.level? price).getD {} := by
      rw [level?_far cell, Std.TreeMap.getD_eq_getD_getElem?]
    rw [entry]
    exact inv'.addFar shares set cell room rfl

/-! ## `reduce` and `remove` -/

/-- A cell whose price stores a level is occupied by it. -/
theorem occupied_of_level? {price : BitVec 32} {l : Level} {i : Nat} (cell : s.cellOf price = some i)
    (stored : s.level? price = some l) : s.Occupied i ∧ s.cellAt i = l := by
  have occupied : s.Occupied i := by
    intro free
    rw [level?_free cell (not_not.mpr free)] at stored
    cases stored
  rw [level?_cell cell occupied] at stored
  exact ⟨occupied, Option.some.inj stored⟩

/-- Another value under a key of the map keeps the invariant, and is stored there. -/
theorem Inv.farRewrite (inv : Inv s) {price : BitVec 32} {l l' : Level} (outside : s.cellOf price = none)
    (stored : s.level? price = some l) (same : l'.price = price) (peopled : l'.orders ≠ 0#32) :
    Inv { s with far := s.far.insert price l' } ∧
      ({ s with far := s.far.insert price l' } : PriceLevels).level? = Function.update s.level? price (.some l') := by
  subst same
  refine ⟨⟨inv.toClean.farInsert outside peopled, ?_⟩, inv.toClean.level?_farInsert outside peopled⟩
  intro unset p l'' here
  change (s.far.insert l'.price l')[p]? = _ at here
  rw [Std.TreeMap.getElem?_insert_ite] at here
  split at here
  · next eq =>
    subst eq
    exact inv.unset unset _ l ((level?_far outside).symm.trans stored)
  · exact inv.unset unset p l'' here

/-- **`reduce`** takes shares off a stored level. -/
theorem Inv.reduce (inv : Inv s) {price : BitVec 32} {l : Level} (stored : s.level? price = some l) (shares : BitVec 32) :
    Inv (s.reduce price shares) ∧ (s.reduce price shares).level? =
      Function.update s.level? price (some { l with shares := l.shares - shares.setWidth 64 }) := by
  obtain ⟨key, peopled⟩ := inv.level?_valid stored
  unfold PriceLevels.reduce
  cases cell : s.cellOf price with
  | some i =>
    obtain ⟨occupied, rfl⟩ := occupied_of_level? cell stored
    obtain ⟨clean, level⟩ := inv.toClean.rewrite occupied
      (l := { s.cellAt i with shares := (s.cellAt i).shares - shares.setWidth 64 }) rfl peopled
    rw [key] at level
    exact ⟨⟨clean, inv.unset⟩, level⟩
  | none =>
    have far : s.far[price]? = .some l := (level?_far cell).symm.trans stored
    simp only [far]
    exact inv.farRewrite cell stored key peopled

/-- Re-centring behind the loss of the best cell moves no level. -/
theorem Clean.recentre (clean : Clean s) (set : s.baseCents ≠ kNoBase) :
    Inv s.recentre ∧ s.recentre.level? = s.level? := by
  have stays : Inv s ∧ s.level? = s.level? := ⟨⟨clean, fun unset => (set unset).elim⟩, rfl⟩
  unfold PriceLevels.recentre
  split
  · next fb _ _ =>
    split
    · next centre =>
      obtain ⟨clean', kept⟩ := clean.rebase fb
      exact ⟨⟨clean', fun unset => ((clean.marks.rebase_centre centre.1).1 unset).elim⟩, kept⟩
    · exact stays
  · exact stays

/-- **`remove`** takes one order off a stored level and deletes the level with its last order. -/
theorem Inv.remove (inv : Inv s) {price : BitVec 32} {l : Level} (stored : s.level? price = some l) (shares : BitVec 32) :
    Inv (s.remove price shares) ∧ (s.remove price shares).level? =
      Function.update s.level? price (if l.orders - 1#32 = 0#32 then none
        else some { l with shares := l.shares - shares.setWidth 64, orders := l.orders - 1#32 }) := by
  obtain ⟨key, peopled⟩ := inv.level?_valid stored
  unfold PriceLevels.remove
  cases cell : s.cellOf price with
  | some i =>
    obtain ⟨occupied, rfl⟩ := occupied_of_level? cell stored
    have baseSet : s.baseCents ≠ kNoBase := (cellOf_eq_some.mp cell).1
    have read := cellAt_setCell occupied.lt
      { s.cellAt i with shares := (s.cellAt i).shares - shares.setWidth 64, orders := (s.cellAt i).orders - 1#32 } i
    simp only [if_true] at read
    simp only [read]
    by_cases last : (s.cellAt i).orders - 1#32 = 0#32
    · rw [if_pos last, if_pos last]
      obtain ⟨clean, level⟩ := inv.toClean.vacate occupied (l :=
        { s.cellAt i with shares := 0#64, orders := (s.cellAt i).orders - 1#32 }) last rfl
      rw [key] at level
      have set : (s.vacate i { s.cellAt i with shares := 0#64, orders := (s.cellAt i).orders - 1#32 }).baseCents ≠ kNoBase := by
        rw [vacate_baseCents]
        exact baseSet
      rw [closeCell_vacate, read]
      split
      · obtain ⟨inv', kept⟩ := clean.recentre set
        exact ⟨inv', kept.trans level⟩
      · exact ⟨⟨clean, fun unset => (set unset).elim⟩, level⟩
    · rw [if_neg last, if_neg last]
      obtain ⟨clean, level⟩ := inv.toClean.rewrite occupied (l := { s.cellAt i with
        shares := (s.cellAt i).shares - shares.setWidth 64, orders := (s.cellAt i).orders - 1#32 }) rfl last
      rw [key] at level
      exact ⟨⟨clean, inv.unset⟩, level⟩
  | none =>
    have far : s.far[price]? = .some l := (level?_far cell).symm.trans stored
    simp only [far]
    by_cases last : l.orders - 1#32 = 0#32
    · rw [if_pos last, if_pos last]
      refine ⟨⟨inv.toClean.farErase price, ?_⟩, inv.toClean.level?_farErase cell⟩
      intro unset p l' here
      change (s.far.erase price)[p]? = _ at here
      rw [Std.TreeMap.getElem?_erase_ite] at here
      split at here
      · cases here
      · exact inv.unset unset p l' here
    · rw [if_neg last, if_neg last]
      exact inv.farRewrite cell stored key last

/-! ## The side never changes -/

theorem setBase_side (s : PriceLevels) (price : BitVec 32) : (s.setBase price).side = s.side := by
  unfold setBase
  split <;> rfl

theorem openCell_side (s : PriceLevels) (i : Nat) (price : BitVec 32) : (s.openCell i price).side = s.side := by
  unfold openCell
  dsimp only
  split <;> rfl

theorem closeCell_side (s : PriceLevels) (i : Nat) : (s.closeCell i).side = s.side := by
  unfold closeCell
  dsimp only
  split
  · split
    · split
      · exact rebase_side _ _
      · rfl
    · rfl
  · rfl

theorem add_side (s : PriceLevels) (price shares : BitVec 32) : (s.add price shares).side = s.side := by
  unfold add
  rw [← setBase_side s price]
  generalize s.setBase price = s
  dsimp only
  split
  · rw [← ensureCells_side s]
    split
    · exact openCell_side _ _ _
    · rfl
  · split
    · exact rebase_side _ _
    · rfl

theorem reduce_side (s : PriceLevels) (price shares : BitVec 32) : (s.reduce price shares).side = s.side := by
  unfold reduce
  split
  · rfl
  · split <;> rfl

theorem remove_side (s : PriceLevels) (price shares : BitVec 32) : (s.remove price shares).side = s.side := by
  unfold remove
  split
  · dsimp only
    split
    · exact closeCell_side _ _
    · rfl
  · split
    · rfl
    · split <;> rfl

end Nts.Book.PriceLevels
