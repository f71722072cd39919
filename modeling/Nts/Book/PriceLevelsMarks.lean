import Nts.Book.PriceLevelsInv

/-!
# The marked cells

`best` and `levels` read a ladder through its bitmap. `Marks` is what bitmap, cached cell and window keep
whatever the numbers of a call are, also where the counter of a level wraps: a marked cell holds a level at its own price,
the cached cell is the first marked one, and the map holds no price of the window. `listed` looks a price up
as the listing sees it; each kind of write changes it at one price or nowhere.
-/

namespace Nts.Book.PriceLevels

variable {s t : PriceLevels}

/-- Marked cells hold levels at their prices, and the first of them is cached. -/
structure Marks (s : PriceLevels) : Prop where
  words : 64 ≤ s.span.toNat ∧ s.span.toNat % 64 = 0
  storage : s.cells.size = 0 ∧ s.bits.size = 0 ∨ s.cells.size = s.span.toNat ∧ s.bits.size * 64 = s.span.toNat
  price : ∀ i, s.Marked i → s.cellOf (s.cellAt i).price = some i
  first : s.IsFirst s.bestCell
  far : ∀ (p : BitVec 32) (l : Level), s.far[p]? = some l → l.price = p ∧ s.cellOf p = none

theorem Placed.marks (placed : Placed s) : Marks s where
  words := placed.words
  storage := placed.storage
  price := fun i marked => placed.price i ((placed.bits i).mp marked)
  first := (isBest_iff_isFirst placed.bits _).mp placed.best
  far := fun p l stored => ⟨(placed.far p l stored).1, (placed.far p l stored).2.2⟩

/-- Marks that agree with the cells. -/
theorem Marks.placed (marks : Marks s) (bits : ∀ i, s.Marked i ↔ s.Occupied i)
    (count : s.arrayCount = (Bitmap.up s.bits).length)
    (orders : ∀ (p : BitVec 32) (l : Level), s.far[p]? = some l → l.orders ≠ 0#32) : Placed s where
  words := marks.words
  storage := marks.storage
  bits := bits
  price := fun i occupied => marks.price i ((bits i).mpr occupied)
  count := count
  best := (isBest_iff_isFirst bits _).mpr marks.first
  far := fun p l stored => ⟨(marks.far p l stored).1, orders p l stored, (marks.far p l stored).2⟩

theorem Marks.words_allocated (marks : Marks s) (allocated : s.Allocated) : s.bits.size * 64 = s.cells.size := by
  rcases marks.storage with ⟨unallocated, _⟩ | ⟨cells, bits⟩
  · have := marks.words.1
    rw [Allocated] at allocated
    omega
  · rw [cells, bits]

/-- A marked cell exists. -/
theorem Marks.lt (marks : Marks s) {i : Nat} (marked : s.Marked i) : i < s.cells.size := by
  have inside := Bitmap.lt_of_test marked
  rcases marks.storage with ⟨_, bits⟩ | ⟨cells, bits⟩ <;> omega

theorem Marks.not_marked_of_isEmpty (marks : Marks s) (unallocated : s.cells.isEmpty) (i : Nat) : ¬ s.Marked i := by
  intro marked
  have inside := marks.lt marked
  rw [Array.isEmpty_iff_size_eq_zero] at unallocated
  omega

/-! ## The listing -/

instance (s : PriceLevels) (i : Nat) : Decidable (s.Marked i) := inferInstanceAs (Decidable (_ = true))

/-- The level listed under a price. -/
def listed (s : PriceLevels) (price : BitVec 32) : Option Level :=
  match s.cellOf price with
  | some i => if s.Marked i then some (s.cellAt i) else none
  | none => s.far[price]?

theorem listed_cell {p : BitVec 32} {i : Nat} (cell : s.cellOf p = some i) (marked : s.Marked i) :
    s.listed p = some (s.cellAt i) := by
  simp only [listed, cell]
  rw [if_pos marked]

theorem listed_free {p : BitVec 32} {i : Nat} (cell : s.cellOf p = some i) (free : ¬ s.Marked i) : s.listed p = none := by
  simp only [listed, cell]
  rw [if_neg free]

theorem listed_far {p : BitVec 32} (outside : s.cellOf p = none) : s.listed p = s.far[p]? := by
  simp only [listed, outside]

theorem listed_isSome_cell {p : BitVec 32} {i : Nat} (cell : s.cellOf p = some i) : (s.listed p).isSome ↔ s.Marked i := by
  by_cases marked : s.Marked i
  · rw [listed_cell cell marked]
    exact iff_of_true rfl marked
  · rw [listed_free cell marked]
    exact iff_of_false Bool.false_ne_true marked

/-- When bitmap and cells agree, what is listed is what is stored. -/
theorem Placed.listed_eq (placed : Placed s) : s.listed = s.level? := by
  funext p
  cases cell : s.cellOf p with
  | none => rw [listed_far cell, level?_far cell]
  | some i =>
    by_cases marked : s.Marked i
    · rw [listed_cell cell marked, level?_cell cell ((placed.bits i).mp marked)]
    · rw [listed_free cell marked, level?_free cell (mt (placed.bits i).mpr marked)]

/-- A level is listed from a marked cell or from the map, under its own price. -/
theorem Marks.listed_eq_some (marks : Marks s) {p : BitVec 32} {l : Level} : s.listed p = some l ↔
    (∃ i, s.Marked i ∧ s.cellAt i = l ∧ l.price = p) ∨ s.far[p]? = some l := by
  constructor
  · intro here
    cases cell : s.cellOf p with
    | none => exact Or.inr ((listed_far cell).symm.trans here)
    | some i =>
      have marked : s.Marked i := by
        by_contra free
        rw [listed_free cell free] at here
        cases here
      rw [listed_cell cell marked] at here
      obtain rfl := Option.some.inj here
      exact Or.inl ⟨i, marked, rfl, cellOf_inj (marks.price i marked) cell⟩
  · rintro (⟨i, marked, rfl, rfl⟩ | far)
    · exact listed_cell (marks.price i marked) marked
    · rw [listed_far (marks.far p l far).2, far]

theorem Marks.listed_price (marks : Marks s) {p : BitVec 32} {l : Level} (here : s.listed p = some l) : l.price = p := by
  rcases marks.listed_eq_some.mp here with ⟨i, _, _, price⟩ | far
  · exact price
  · exact (marks.far p l far).1

/-! ## Writes to the map -/

/-- Another map whose entries belong there. -/
theorem Marks.setFar (marks : Marks s) {far : Std.TreeMap (BitVec 32) Level}
    (valid : ∀ (p : BitVec 32) (l : Level), far[p]? = some l → l.price = p ∧ s.cellOf p = none) : Marks { s with far } where
  words := marks.words
  storage := marks.storage
  price := marks.price
  first := marks.first
  far := valid

theorem Marks.farInsert (marks : Marks s) {l : Level} (outside : s.cellOf l.price = none) :
    Marks { s with far := s.far.insert l.price l } := by
  apply marks.setFar
  intro p l' here
  rw [Std.TreeMap.getElem?_insert_ite] at here
  split at here
  · next eq =>
    obtain rfl := Option.some.inj here
    exact ⟨eq.symm, eq ▸ outside⟩
  · exact marks.far p l' here

/-- Another map is read outside the window only. -/
theorem listed_setFar (far : Std.TreeMap (BitVec 32) Level) (q : BitVec 32) :
    ({ s with far := far } : PriceLevels).listed q = if s.cellOf q = none then far[q]? else s.listed q := by
  cases cell : s.cellOf q with
  | none => rw [if_pos rfl, listed_far (s := { s with far := far }) cell]
  | some i =>
    rw [if_neg (Option.some_ne_none i)]
    unfold listed
    rw [show cellOf { s with far := far } q = some i from cell, cell]
    rfl

theorem listed_farInsert {p : BitVec 32} (outside : s.cellOf p = none) (l : Level) :
    ({ s with far := s.far.insert p l } : PriceLevels).listed = Function.update s.listed p (some l) := by
  funext q
  rw [Function.update_apply]
  rw [listed_setFar, Std.TreeMap.getElem?_insert_ite]
  by_cases eq : q = p
  · rw [if_pos eq, if_pos eq, eq, if_pos outside]
  · rw [if_neg eq, if_neg eq]
    exact (listed_setFar s.far q).symm

theorem Marks.farErase (marks : Marks s) (p : BitVec 32) : Marks { s with far := s.far.erase p } := by
  apply marks.setFar
  intro q l here
  rw [Std.TreeMap.getElem?_erase_ite] at here
  split at here
  · cases here
  · exact marks.far q l here

theorem listed_farErase {p : BitVec 32} (outside : s.cellOf p = none) :
    ({ s with far := s.far.erase p } : PriceLevels).listed = Function.update s.listed p none := by
  funext q
  rw [Function.update_apply]
  rw [listed_setFar, Std.TreeMap.getElem?_erase_ite]
  by_cases eq : q = p
  · rw [if_pos eq, if_pos eq, eq, if_pos outside]
  · rw [if_neg eq, if_neg eq]
    exact (listed_setFar s.far q).symm

/-! ## Writes to a cell -/

/-- The listing after a cell was written, whatever else changed beside it. -/
theorem listed_write {i : Nat} {p : BitVec 32} (cell : s.cellOf p = some i)
    (marked : ∀ j, j ≠ i → (t.Marked j ↔ s.Marked j)) (read : ∀ j, j ≠ i → t.cellAt j = s.cellAt j)
    (same : t.cellOf = s.cellOf) (far : t.far = s.far) :
    t.listed = Function.update s.listed p (if t.Marked i then some (t.cellAt i) else none) := by
  funext q
  rw [Function.update_apply]
  split
  · next eq => simp only [listed, same, eq, cell]
  · next ne =>
    cases other : s.cellOf q with
    | none => rw [listed_far other, listed_far (by rw [same, other]), far]
    | some j =>
      have apart : j ≠ i := by
        rintro rfl
        exact ne (cellOf_inj other cell)
      simp only [listed, same, other, marked j apart, read j apart]

/-- A write to a cell that leaves the price of a marked cell alone. -/
theorem Marks.setCell (marks : Marks s) {i : Nat} {l : Level} (price : s.Marked i → l.price = (s.cellAt i).price) :
    Marks (s.setCell i l) := by
  refine ⟨marks.words, ?_, ?_, ?_, marks.far⟩
  · simpa only [PriceLevels.setCell, Array.size_setIfInBounds] using marks.storage
  · intro j marked
    have old := marks.price j marked
    by_cases eq : j = i
    · subst eq
      rw [cellAt_setCell (marks.lt marked), if_pos rfl, price marked]
      exact old
    · rw [cellAt_setCell_of_ne eq]
      exact old
  · have first := marks.first
    change IsFirst (s.setCell i l) s.bestCell
    cases cached : s.bestCell <;> rw [cached] at first <;> exact first

theorem Marks.listed_setCell (marks : Marks s) {i : Nat} {p : BitVec 32} (cell : s.cellOf p = some i) (l : Level) :
    (s.setCell i l).listed = if s.Marked i then Function.update s.listed p (some l) else s.listed := by
  have write : (s.setCell i l).listed =
      Function.update s.listed p (if s.Marked i then some ((s.setCell i l).cellAt i) else none) :=
    listed_write (t := s.setCell i l) cell (fun _ _ => Iff.rfl) (fun _ ne => cellAt_setCell_of_ne ne l) rfl rfl
  rw [write]
  split
  · next marked => rw [cellAt_setCell (marks.lt marked), if_pos rfl]
  · next free => rw [← listed_free cell free, Function.update_eq_self]

/-- What `place` and `add` do to a cell that held no level. -/
def occupy (s : PriceLevels) (i : Nat) (l : Level) : PriceLevels :=
  let s := (s.setCell i l).setBit i
  let s := { s with arrayCount := s.arrayCount + 1 }
  if s.beatsBest l.price then { s with bestCell := some i } else s

section occupy
variable (s) (i : Nat) (l : Level)

@[simp] theorem occupy_cells : (s.occupy i l).cells = (s.setCell i l).cells := by unfold occupy; dsimp only; split <;> rfl

@[simp] theorem occupy_cellAt : (s.occupy i l).cellAt = (s.setCell i l).cellAt := by
  unfold occupy; dsimp only; split <;> rfl

@[simp] theorem occupy_bits : (s.occupy i l).bits = Bitmap.set s.bits i := by unfold occupy; dsimp only; split <;> rfl

@[simp] theorem occupy_cellOf : (s.occupy i l).cellOf = s.cellOf := by unfold occupy; dsimp only; split <;> rfl

@[simp] theorem occupy_span : (s.occupy i l).span = s.span := by unfold occupy; dsimp only; split <;> rfl

@[simp] theorem occupy_side : (s.occupy i l).side = s.side := by unfold occupy; dsimp only; split <;> rfl

@[simp] theorem occupy_baseCents : (s.occupy i l).baseCents = s.baseCents := by unfold occupy; dsimp only; split <;> rfl

@[simp] theorem occupy_far : (s.occupy i l).far = s.far := by unfold occupy; dsimp only; split <;> rfl

@[simp] theorem occupy_arrayCount : (s.occupy i l).arrayCount = s.arrayCount + 1 := by
  unfold occupy; dsimp only; split <;> rfl

theorem occupy_bestCell : (s.occupy i l).bestCell = if (s.setCell i l).beatsBest l.price then some i else s.bestCell := by
  unfold occupy
  change (if (s.setCell i l).beatsBest l.price = true then _ else _ : PriceLevels).bestCell = _
  split <;> rfl

end occupy

/-- A level enters its cell, whatever was there. -/
theorem Marks.occupy (marks : Marks s) (allocated : s.Allocated) {i : Nat} {l : Level} (cell : s.cellOf l.price = some i) :
    Marks (s.occupy i l) ∧ (s.occupy i l).listed = Function.update s.listed l.price (some l) := by
  have bound : i < s.cells.size := by
    rw [allocated]
    exact cellOf_lt cell
  have inWords : i < s.bits.size * 64 := by
    rw [marks.words_allocated allocated]
    exact bound
  have read : ∀ j, (s.occupy i l).cellAt j = if j = i then l else s.cellAt j := by
    intro j
    rw [occupy_cellAt, cellAt_setCell bound]
  have marked : ∀ j, (s.occupy i l).Marked j ↔ j = i ∨ s.Marked j := by
    intro j
    rw [Marked, occupy_bits, Bitmap.test_set inWords, Bool.or_eq_true, decide_eq_true_eq]
    exact Iff.rfl
  have ahead : (s.occupy i l).Ahead = s.Ahead := by
    funext a b
    simp only [Ahead, occupy_side]
  refine ⟨⟨?_, ?_, ?_, ?_, ?_⟩, ?_⟩
  · rw [occupy_span]
    exact marks.words
  · rw [occupy_cells, occupy_bits, occupy_span, Bitmap.size_set, PriceLevels.setCell, Array.size_setIfInBounds]
    exact marks.storage
  · intro j marked'
    rw [occupy_cellOf, read]
    by_cases eq : j = i
    · rw [if_pos eq, eq]
      exact cell
    · rw [if_neg eq]
      exact marks.price j (((marked j).mp marked').resolve_left eq)
  · -- the new cell is first exactly when its price beats the cached cell's
    have first := marks.first
    rw [occupy_bestCell]
    cases cached : s.bestCell with
    | none =>
      rw [cached] at first
      rw [if_pos (beatsBest_none (s := s.setCell i l) cached _)]
      refine ⟨(marked i).mpr (Or.inl rfl), fun j marked' => Or.inl ?_⟩
      exact ((marked j).mp marked').resolve_right (first j)
    | some b =>
      rw [cached] at first
      have better : (s.setCell i l).better = s.better := better_congr rfl
      rw [beatsBest_some (s := s.setCell i l) cached, better, cellAt_setCell bound]
      by_cases eq : b = i
      · subst eq
        rw [if_pos rfl, if_neg fun beats => better_asymm beats beats]
        refine ⟨(marked b).mpr (Or.inl rfl), fun j marked' => ?_⟩
        rw [ahead]
        rcases (marked j).mp marked' with eq | old
        · exact Or.inl eq
        · exact first.2 j old
      · rw [if_neg eq]
        have compare := better_iff_ahead cell (marks.price b first.1)
        by_cases beats : s.better l.price (s.cellAt b).price
        · rw [if_pos beats]
          refine ⟨(marked i).mpr (Or.inl rfl), fun j marked' => ?_⟩
          rw [ahead]
          rcases (marked j).mp marked' with eq | old
          · exact Or.inl eq
          · rcases first.2 j old with rfl | later
            · exact Or.inr (compare.mp beats)
            · exact Or.inr ((compare.mp beats).trans later)
        · rw [if_neg beats]
          refine ⟨(marked b).mpr (Or.inr first.1), fun j marked' => ?_⟩
          rw [ahead]
          rcases (marked j).mp marked' with rfl | old
          · exact Or.inr ((ahead_total eq).resolve_right (mt compare.mpr beats))
          · exact first.2 j old
  · rw [occupy_far, occupy_cellOf]
    exact marks.far
  · rw [listed_write cell (fun j ne => by rw [marked, or_iff_right ne]) (fun j ne => by rw [read, if_neg ne])
      (occupy_cellOf s i l) (occupy_far s i l), if_pos ((marked i).mpr (Or.inl rfl)), read, if_pos rfl]

/-- What `remove` does to a cell that lost its last order, up to the re-centring. -/
def vacate (s : PriceLevels) (i : Nat) (l : Level) : PriceLevels :=
  let s := (s.setCell i l).clearBit i
  let s := { s with arrayCount := s.arrayCount - 1 }
  if s.bestCell = some i then { s with bestCell := s.scanBest } else s

section vacate
variable (s) (i : Nat) (l : Level)

@[simp] theorem vacate_cells : (s.vacate i l).cells = (s.setCell i l).cells := by unfold vacate; dsimp only; split <;> rfl

@[simp] theorem vacate_cellAt : (s.vacate i l).cellAt = (s.setCell i l).cellAt := by
  unfold vacate; dsimp only; split <;> rfl

@[simp] theorem vacate_bits : (s.vacate i l).bits = Bitmap.clear s.bits i := by unfold vacate; dsimp only; split <;> rfl

@[simp] theorem vacate_cellOf : (s.vacate i l).cellOf = s.cellOf := by unfold vacate; dsimp only; split <;> rfl

@[simp] theorem vacate_span : (s.vacate i l).span = s.span := by unfold vacate; dsimp only; split <;> rfl

@[simp] theorem vacate_side : (s.vacate i l).side = s.side := by unfold vacate; dsimp only; split <;> rfl

@[simp] theorem vacate_baseCents : (s.vacate i l).baseCents = s.baseCents := by unfold vacate; dsimp only; split <;> rfl

@[simp] theorem vacate_far : (s.vacate i l).far = s.far := by unfold vacate; dsimp only; split <;> rfl

@[simp] theorem vacate_arrayCount : (s.vacate i l).arrayCount = s.arrayCount - 1 := by
  unfold vacate; dsimp only; split <;> rfl

theorem vacate_bestCell :
    (s.vacate i l).bestCell = if s.bestCell = some i then (s.vacate i l).scanBest else s.bestCell := by
  unfold vacate
  dsimp only
  split
  · next was => rw [if_pos (show s.bestCell = some i from was)]; rfl
  · next was => rw [if_neg (show ¬ s.bestCell = some i from was)]; rfl

end vacate

/-- A cell is given up, whether it was marked or not. -/
theorem Marks.vacate (marks : Marks s) {i : Nat} {p : BitVec 32} (cell : s.cellOf p = some i) (l : Level) :
    Marks (s.vacate i l) ∧ (s.vacate i l).listed = Function.update s.listed p none := by
  have read : ∀ j, j ≠ i → (s.vacate i l).cellAt j = s.cellAt j := by
    intro j ne
    rw [vacate_cellAt, cellAt_setCell_of_ne ne]
  have left : ∀ j, (s.vacate i l).Marked j ↔ j ≠ i ∧ s.Marked j := by
    intro j
    rw [Marked, vacate_bits, Bitmap.test_clear, Bool.and_eq_true, Bool.not_eq_true', decide_eq_false_iff_not]
    exact Iff.rfl
  have ahead : (s.vacate i l).Ahead = s.Ahead := by
    funext a b
    simp only [Ahead, vacate_side]
  refine ⟨⟨?_, ?_, ?_, ?_, ?_⟩, ?_⟩
  · rw [vacate_span]
    exact marks.words
  · rw [vacate_cells, vacate_bits, vacate_span, Bitmap.size_clear, PriceLevels.setCell, Array.size_setIfInBounds]
    exact marks.storage
  · intro j marked'
    obtain ⟨ne, old⟩ := (left j).mp marked'
    rw [vacate_cellOf, read j ne]
    exact marks.price j old
  · -- only losing the first cell itself needs the scan
    rw [vacate_bestCell]
    split
    · exact isFirst_scan _
    · next other =>
      have first := marks.first
      cases cached : s.bestCell with
      | none =>
        rw [cached] at first
        exact fun j marked' => first j ((left j).mp marked').2
      | some b =>
        rw [cached] at first other
        refine ⟨(left b).mpr ⟨fun eq => other (congrArg some eq), first.1⟩, fun j marked' => ?_⟩
        rw [ahead]
        exact first.2 j ((left j).mp marked').2
  · rw [vacate_far, vacate_cellOf]
    exact marks.far
  · rw [listed_write cell (fun j ne => by rw [left, and_iff_right ne]) read (vacate_cellOf s i l) (vacate_far s i l),
      if_neg fun marked' => ((left i).mp marked').1 rfl]

/-! ## Allocation -/

theorem ensureCells_cellAt (s : PriceLevels) : s.ensureCells.cellAt = s.cellAt := by
  funext i
  unfold ensureCells
  split
  · next unallocated =>
    rw [cellAt_of_isEmpty unallocated]
    simp only [cellAt, Array.getD_eq_getD_getElem?, Array.getElem?_replicate]
    split <;> rfl
  · rfl

@[simp] theorem ensureCells_cellOf (s : PriceLevels) : s.ensureCells.cellOf = s.cellOf := by unfold ensureCells; split <;> rfl

@[simp] theorem ensureCells_side (s : PriceLevels) : s.ensureCells.side = s.side := by unfold ensureCells; split <;> rfl

@[simp] theorem ensureCells_span (s : PriceLevels) : s.ensureCells.span = s.span := by unfold ensureCells; split <;> rfl

@[simp] theorem ensureCells_baseCents (s : PriceLevels) : s.ensureCells.baseCents = s.baseCents := by
  unfold ensureCells; split <;> rfl

@[simp] theorem ensureCells_far (s : PriceLevels) : s.ensureCells.far = s.far := by unfold ensureCells; split <;> rfl

@[simp] theorem ensureCells_bestCell (s : PriceLevels) : s.ensureCells.bestCell = s.bestCell := by
  unfold ensureCells; split <;> rfl

@[simp] theorem ensureCells_arrayCount (s : PriceLevels) : s.ensureCells.arrayCount = s.arrayCount := by
  unfold ensureCells; split <;> rfl

/-- Allocating the arrays marks nothing. -/
theorem Marks.ensureCells_marked (marks : Marks s) (i : Nat) : s.ensureCells.Marked i ↔ s.Marked i := by
  by_cases none : s.cells.isEmpty
  · have free : ¬ s.ensureCells.Marked i := by
      rw [Marked, PriceLevels.ensureCells, if_pos none, Bitmap.test_replicate]
      exact Bool.false_ne_true
    exact iff_of_false free (marks.not_marked_of_isEmpty none i)
  · rw [PriceLevels.ensureCells, if_neg none]

theorem Marks.ensureCells (marks : Marks s) :
    Marks s.ensureCells ∧ s.ensureCells.Allocated ∧ s.ensureCells.listed = s.listed := by
  have marked := marks.ensureCells_marked
  have allocated : s.ensureCells.Allocated ∧ s.ensureCells.bits.size * 64 = s.span.toNat := by
    by_cases none : s.cells.isEmpty
    · have := marks.words.2
      rw [Allocated, ensureCells_span, PriceLevels.ensureCells, if_pos none]
      simp only [Array.size_replicate, true_and]
      omega
    · have same : s.ensureCells = s := by rw [PriceLevels.ensureCells, if_neg none]
      rw [Array.isEmpty_iff_size_eq_zero] at none
      rw [same]
      exact marks.storage.resolve_left fun empty => none empty.1
  refine ⟨⟨?_, Or.inr ?_, ?_, ?_, ?_⟩, allocated.1, ?_⟩
  · rw [ensureCells_span]
    exact marks.words
  · rw [ensureCells_span]
    exact ⟨allocated.1.trans (congrArg _ (ensureCells_span s)), allocated.2⟩
  · intro i here
    rw [ensureCells_cellOf, ensureCells_cellAt]
    exact marks.price i ((marked i).mp here)
  · have first := marks.first
    have ahead : s.ensureCells.Ahead = s.Ahead := by
      funext a b
      simp only [Ahead, ensureCells_side]
    rw [ensureCells_bestCell]
    cases cached : s.bestCell with
    | none =>
      rw [cached] at first
      exact fun i here => first i ((marked i).mp here)
    | some b =>
      rw [cached] at first
      refine ⟨(marked b).mpr first.1, fun i here => ?_⟩
      rw [ahead]
      exact first.2 i ((marked i).mp here)
  · rw [ensureCells_far, ensureCells_cellOf]
    exact marks.far
  · funext p
    simp only [listed, ensureCells_cellOf, ensureCells_cellAt, ensureCells_far, marked]

/-! ## Re-centring -/

theorem Marks.place (marks : Marks s) (allocated : s.Allocated) (l : Level) :
    Marks (s.place l) ∧ (s.place l).Allocated ∧ (s.place l).listed = Function.update s.listed l.price (some l) := by
  cases cell : s.cellOf l.price with
  | none =>
    have placed : s.place l = { s with far := s.far.insert l.price l } := by
      simp only [PriceLevels.place, cell]
    rw [placed]
    exact ⟨marks.farInsert cell, allocated, listed_farInsert cell l⟩
  | some i =>
    have placed : s.place l = s.occupy i l := by
      simp only [PriceLevels.place, cell]
      rfl
    rw [placed]
    obtain ⟨marks', listed⟩ := marks.occupy allocated cell
    refine ⟨marks', ?_, listed⟩
    rw [Allocated, occupy_cells, occupy_span, PriceLevels.setCell, Array.size_setIfInBounds]
    exact allocated

/-- Levels with distinct prices are all placed. -/
theorem Marks.foldl_place {ls : List Level} (marks : Marks s) (allocated : s.Allocated)
    (distinct : (ls.map Level.price).Nodup) :
    Marks (ls.foldl PriceLevels.place s) ∧ (∀ l ∈ ls, (ls.foldl PriceLevels.place s).listed l.price = some l) ∧
      ∀ p ∉ ls.map Level.price, (ls.foldl PriceLevels.place s).listed p = s.listed p := by
  induction ls generalizing s with
  | nil => exact ⟨marks, fun l member => (List.not_mem_nil member).elim, fun _ _ => rfl⟩
  | cons l ls ih =>
    rw [List.map_cons, List.nodup_cons] at distinct
    obtain ⟨marks', allocated', listed⟩ := marks.place allocated l
    obtain ⟨final, stored, kept⟩ := ih marks' allocated' distinct.2
    refine ⟨final, ?_, ?_⟩
    · intro l' member
      rcases List.mem_cons.mp member with rfl | later
      · rw [List.foldl_cons, kept _ distinct.1, listed, Function.update_self]
      · exact stored l' later
    · intro p notMember
      rw [List.map_cons, List.mem_cons, not_or] at notMember
      rw [List.foldl_cons, kept p notMember.2, listed, Function.update_of_ne notMember.1]

/-- Reading and blanking the cells of a list of distinct cells. -/
theorem gather_fold (is : List Nat) (nodup : is.Nodup) (ls : List Level) (cells : Array Level)
    (bound : ∀ i ∈ is, i < cells.size) :
    let after := is.foldl (fun acc i => (acc.1 ++ [acc.2.getD i {}], acc.2.setIfInBounds i {})) (ls, cells)
    after.1 = ls ++ is.map (fun i => cells.getD i {}) ∧ after.2.size = cells.size ∧
      ∀ j, after.2.getD j {} = if j ∈ is then ({} : Level) else cells.getD j {} := by
  induction is generalizing ls cells with
  | nil => simp
  | cons i is ih =>
    obtain ⟨fresh, nodup⟩ := List.nodup_cons.mp nodup
    have read : ∀ j, (cells.setIfInBounds i {}).getD j {} = if j = i then ({} : Level) else cells.getD j {} :=
      fun j => cellAt_setCell (s := { side := .buy, span := 0#32, cells }) (bound i List.mem_cons_self) {} j
    obtain ⟨gathered, size, blanked⟩ := ih nodup (ls ++ [cells.getD i {}]) (cells.setIfInBounds i {}) (by
      intro j member
      rw [Array.size_setIfInBounds]
      exact bound j (List.mem_cons_of_mem _ member))
    refine ⟨?_, ?_, ?_⟩
    · rw [List.foldl_cons, gathered, List.append_assoc]
      congr 1
      rw [List.map_cons, List.singleton_append, List.cons.injEq]
      refine ⟨rfl, List.map_congr_left fun j member => ?_⟩
      rw [read, if_neg (by rintro rfl; exact fresh member)]
    · rw [List.foldl_cons, size, Array.size_setIfInBounds]
    · intro j
      rw [List.foldl_cons, blanked, read]
      by_cases eq : j = i <;> by_cases later : j ∈ is <;> simp [eq, later]

/-- The walk of `rebase` collects the marked cells. -/
theorem Marks.gatherCells (marks : Marks s) : s.gatherCells.1 = (Bitmap.up s.bits).map s.cellAt ∧
    s.gatherCells.2.size = s.cells.size ∧
      ∀ i, s.gatherCells.2.getD i {} = if s.Marked i then {} else s.cellAt i := by
  have nodup : (Bitmap.up s.bits).Nodup := (Bitmap.up_sorted s.bits).imp fun less => Nat.ne_of_lt less
  have bound : ∀ i ∈ Bitmap.up s.bits, i < s.cells.size := fun i member => marks.lt ((Bitmap.mem_up _ _).mp member)
  obtain ⟨gathered, size, blanked⟩ := gather_fold _ nodup [] s.cells bound
  refine ⟨gathered, size, fun i => ?_⟩
  rw [PriceLevels.gatherCells, blanked]
  exact if_congr (Bitmap.mem_up _ _) rfl rfl

/-- `rebase` gathers exactly the listed levels. -/
theorem Marks.mem_gathered (marks : Marks s) (l : Level) : l ∈ s.gathered ↔ s.listed l.price = some l := by
  have walk : l ∈ (if s.cells.isEmpty then [] else s.gatherCells.1) ↔ ∃ i, s.Marked i ∧ s.cellAt i = l := by
    split
    · next unallocated => simp [marks.not_marked_of_isEmpty unallocated]
    · simp only [marks.gatherCells.1, List.mem_map, Bitmap.mem_up]
      exact Iff.rfl
  rw [gathered, List.mem_append, walk, marks.listed_eq_some]
  simp only [and_true, List.mem_map, Prod.exists, Std.TreeMap.mem_toList_iff_getElem?_eq_some, exists_eq_right]
  constructor
  · rintro (cell | ⟨p, stored⟩)
    · exact Or.inl cell
    · exact Or.inr ((marks.far p l stored).1 ▸ stored)
  · rintro (cell | stored)
    · exact Or.inl cell
    · exact Or.inr ⟨l.price, stored⟩

/-- No price is gathered twice. -/
theorem Marks.gathered_distinct (marks : Marks s) : (s.gathered.map Level.price).Nodup := by
  have farPrices : (s.far.toList.map Prod.snd).map Level.price = s.far.toList.map Prod.fst := by
    rw [List.map_map]
    apply List.map_congr_left
    rintro ⟨p, l⟩ member
    exact (marks.far p l (Std.TreeMap.mem_toList_iff_getElem?_eq_some.mp member)).1
  have farKeys : (s.far.toList.map Prod.fst).Nodup := by
    apply List.pairwise_map.mpr
    exact Std.TreeMap.distinct_keys_toList.imp fun different eq =>
      different (Std.LawfulEqOrd.compare_eq_iff_eq.mpr eq)
  rw [gathered, List.map_append, farPrices]
  split
  · exact farKeys
  · refine List.nodup_append.mpr ⟨?_, farKeys, ?_⟩
    · rw [marks.gatherCells.1, List.map_map, List.Nodup, List.pairwise_map]
      apply (Bitmap.up_sorted s.bits).imp_of_mem
      intro i j hi hj less eq
      have ci := marks.price i ((Bitmap.mem_up _ _).mp hi)
      have cj := marks.price j ((Bitmap.mem_up _ _).mp hj)
      simp only [Function.comp] at eq
      rw [eq, cj] at ci
      have := Option.some.inj ci
      omega
    · intro p hp q hq eq
      subst eq
      obtain ⟨l, member, rfl⟩ := List.mem_map.mp hp
      rw [marks.gatherCells.1] at member
      obtain ⟨i, hi, rfl⟩ := List.mem_map.mp member
      obtain ⟨⟨q, l⟩, stored, key⟩ := List.mem_map.mp hq
      have outside := (marks.far q l (Std.TreeMap.mem_toList_iff_getElem?_eq_some.mp stored)).2
      dsimp only at key
      rw [key, marks.price i ((Bitmap.mem_up _ _).mp hi)] at outside
      cases outside

/-- `rebase` starts putting back from a state that lists nothing, around the new centre. -/
theorem Marks.emptied (marks : Marks s) (centre : BitVec 32) :
    Marks (s.emptied centre) ∧ (s.emptied centre).Allocated ∧ (∀ p, (s.emptied centre).listed p = none) ∧
      ((s.emptied centre).span = s.span ∧ (s.emptied centre).baseCents = baseAround s.span (centre / kTick)) ∧
      ((s.emptied centre).bits = Array.replicate (s.span.toNat / 64) 0#64 ∧ (s.emptied centre).far = ∅) ∧
      ∀ i, (s.emptied centre).cellAt i = if s.Marked i then {} else s.cellAt i := by
  -- the state the walk and `far_.clear()` leave, before the arrays are allocated
  obtain ⟨u, hu⟩ : ∃ u : PriceLevels, u = { s with
      cells := (if s.cells.isEmpty then ([], s.cells) else s.gatherCells).2, far := ∅ } := ⟨_, rfl⟩
  have shape : s.emptied centre = { u.ensureCells with
      bits := Array.replicate (u.ensureCells.span.toNat / 64) 0#64, arrayCount := 0, bestCell := none,
      baseCents := baseAround u.ensureCells.span (centre / kTick), rebases := u.ensureCells.rebases + 1 } := by
    rw [hu]
    rfl
  have size : u.cells.size = s.cells.size := by
    rw [hu]
    dsimp only
    split
    · rfl
    · exact marks.gatherCells.2.1
  have span : u.span = s.span := by rw [hu]
  have farEmpty : u.far = ∅ := by rw [hu]
  have allocated : u.ensureCells.cells.size = s.span.toNat := by
    unfold PriceLevels.ensureCells
    split
    · rw [Array.size_replicate, span]
    · next allocated =>
      rw [size]
      rw [Array.isEmpty_iff_size_eq_zero, size] at allocated
      exact (marks.storage.resolve_left fun unallocated => allocated unallocated.1).1
  have spanSame : (s.emptied centre).span = s.span := by
    rw [shape]
    exact (ensureCells_span u).trans span
  have cellsSize : (s.emptied centre).cells.size = s.span.toNat := by
    rw [shape]
    exact allocated
  have bits : (s.emptied centre).bits = Array.replicate (s.span.toNat / 64) 0#64 := by
    rw [shape, ← span, ← ensureCells_span u]
  have free : ∀ i, ¬ (s.emptied centre).Marked i := by
    intro i
    rw [Marked, bits, Bitmap.test_replicate]
    exact Bool.false_ne_true
  have empty : (s.emptied centre).far = ∅ := by
    rw [shape]
    exact (ensureCells_far u).trans farEmpty
  have noFar : ∀ p : BitVec 32, (s.emptied centre).far[p]? = none := by
    intro p
    rw [empty]
    exact Std.TreeMap.getElem?_emptyc
  have read : ∀ i, (s.emptied centre).cellAt i = if s.Marked i then {} else s.cellAt i := by
    intro i
    have before : (s.emptied centre).cellAt i = u.cellAt i := by
      rw [shape, ← ensureCells_cellAt u]
      rfl
    rw [before, hu]
    change (if s.cells.isEmpty then ([], s.cells) else s.gatherCells).2.getD i {} = _
    split
    · next unallocated =>
      rw [if_neg (marks.not_marked_of_isEmpty unallocated i)]
      rfl
    · exact marks.gatherCells.2.2 i
  refine ⟨⟨?_, Or.inr ⟨?_, ?_⟩, ?_, ?_, ?_⟩, ?_, ?_, ⟨spanSame, ?_⟩, ⟨bits, empty⟩, read⟩
  · rw [spanSame]
    exact marks.words
  · rw [cellsSize, spanSame]
  · have := marks.words.2
    rw [bits, spanSame, Array.size_replicate]
    omega
  · exact fun i marked => (free i marked).elim
  · rw [shape]
    rw [shape] at free
    exact free
  · intro p l stored
    rw [noFar] at stored
    cases stored
  · rw [Allocated, cellsSize, spanSame]
  · intro p
    cases cell : (s.emptied centre).cellOf p with
    | none => rw [listed_far cell, noFar]
    | some i => exact listed_free cell (free i)
  · rw [shape, ← span, ← ensureCells_span u]

theorem place_side (s : PriceLevels) (l : Level) : (s.place l).side = s.side := by
  unfold place
  split
  · rfl
  · exact occupy_side s _ l

theorem place_span (s : PriceLevels) (l : Level) : (s.place l).span = s.span := by
  unfold place
  split
  · rfl
  · exact occupy_span s _ l

theorem place_baseCents (s : PriceLevels) (l : Level) : (s.place l).baseCents = s.baseCents := by
  unfold place
  split
  · rfl
  · exact occupy_baseCents s _ l

/-- A field that `place` keeps survives the loop that puts the levels back. -/
theorem foldl_place_field {β : Type} (field : PriceLevels → β) (kept : ∀ s l, field (s.place l) = field s) (ls : List Level)
    (s : PriceLevels) : field (ls.foldl place s) = field s := by
  induction ls generalizing s with
  | nil => rfl
  | cons l ls ih => rw [List.foldl_cons, ih, kept]

theorem rebase_side (s : PriceLevels) (centre : BitVec 32) : (s.rebase centre).side = s.side := by
  rw [rebase, foldl_place_field _ place_side]
  exact ensureCells_side _

theorem Marks.rebase_frame (marks : Marks s) (centre : BitVec 32) :
    (s.rebase centre).span = s.span ∧ (s.rebase centre).baseCents = baseAround s.span (centre / kTick) := by
  obtain ⟨_, _, _, ⟨span, base⟩, _⟩ := marks.emptied centre
  refine ⟨?_, ?_⟩
  · rw [rebase, foldl_place_field _ place_span, span]
  · rw [rebase, foldl_place_field _ place_baseCents, base]

/-- **Re-centring** lists the same levels. -/
theorem Marks.rebase (marks : Marks s) (centre : BitVec 32) :
    Marks (s.rebase centre) ∧ (s.rebase centre).listed = s.listed := by
  obtain ⟨empty, allocated, absent, _⟩ := marks.emptied centre
  obtain ⟨final, stored, kept⟩ := empty.foldl_place allocated marks.gathered_distinct
  refine ⟨final, ?_⟩
  funext p
  by_cases member : p ∈ s.gathered.map Level.price
  · obtain ⟨l, inside, rfl⟩ := List.mem_map.mp member
    rw [(marks.mem_gathered l).mp inside]
    exact stored l inside
  · have missing : s.listed p = none := by
      rw [Option.eq_none_iff_forall_ne_some]
      intro l here
      apply member
      obtain rfl := marks.listed_price here
      exact List.mem_map_of_mem ((marks.mem_gathered l).mpr here)
    rw [missing, PriceLevels.rebase, kept p member, absent]

/-- After re-centring on a whole-cent price the base is set and the price has a cell. -/
theorem Marks.rebase_centre (marks : Marks s) {centre : BitVec 32} (whole : centre % kTick = 0#32) :
    (s.rebase centre).baseCents ≠ kNoBase ∧ ∃ i, (s.rebase centre).cellOf centre = some i := by
  obtain ⟨span, base⟩ := marks.rebase_frame centre
  apply cellOf_centre whole
  · rw [span]
    exact marks.words.1
  · rw [span, base]

/-! ## The window -/

/-- Also, only whole-cent prices wait for a first window: what every call keeps. -/
structure Windowed (s : PriceLevels) : Prop extends Marks s where
  unset : s.baseCents = kNoBase → ∀ (p : BitVec 32) (l : Level), s.far[p]? = some l → p % kTick ≠ 0#32

theorem Inv.windowed (inv : Inv s) : Windowed s := ⟨inv.marks, inv.unset⟩

theorem Marks.windowed_rebase (marks : Marks s) {centre : BitVec 32} (whole : centre % kTick = 0#32) :
    Windowed (s.rebase centre) :=
  ⟨(marks.rebase centre).1, fun unset => ((marks.rebase_centre whole).1 unset).elim⟩

/-- The first whole-cent price fixes the window; nothing moves. -/
theorem Windowed.setBase (windowed : Windowed s) (price : BitVec 32) : Windowed (s.setBase price) ∧
    (s.setBase price).listed = s.listed ∧ (price % kTick = 0#32 → (s.setBase price).baseCents ≠ kNoBase) := by
  by_cases first : s.baseCents = kNoBase ∧ price % kTick = 0#32
  · obtain ⟨unset, whole⟩ := first
    have shape : s.setBase price = { s with baseCents := baseAround s.span (price / kTick) } := by
      rw [PriceLevels.setBase, if_pos ⟨unset, whole⟩]
    rw [shape]
    have free : ∀ i, ¬ s.Marked i := by
      intro i marked
      have cell := windowed.price i marked
      rw [cellOf_unset unset] at cell
      cases cell
    have broken : ∀ (p : BitVec 32) (l : Level), s.far[p]? = some l →
        cellOf { s with baseCents := baseAround s.span (price / kTick) } p = none := by
      intro p l stored
      have := mt (tick_dvd p).mpr (windowed.unset unset p l stored)
      rw [Option.eq_none_iff_forall_ne_some]
      intro i cell
      obtain ⟨_, _, cents⟩ := cellOf_eq_some.mp cell
      omega
    have set := (cellOf_centre (s := { s with baseCents := baseAround s.span (price / kTick) }) whole windowed.words.1 rfl).1
    have listed : ({ s with baseCents := baseAround s.span (price / kTick) } : PriceLevels).listed = s.listed := by
      funext p
      rw [listed_far (cellOf_unset unset p)]
      cases cell : cellOf { s with baseCents := baseAround s.span (price / kTick) } p with
      | none => exact listed_far cell
      | some i =>
        rw [listed_free cell (free i)]
        cases stored : s.far[p]? with
        | none => rfl
        | some l =>
          rw [broken p l stored] at cell
          cases cell
    refine ⟨⟨⟨windowed.words, windowed.storage, fun i marked => (free i marked).elim, ?_, ?_⟩,
      fun unset' => (set unset').elim⟩, listed, fun _ => set⟩
    · have first := windowed.first
      change IsFirst _ s.bestCell
      cases cached : s.bestCell with
      | none => exact free
      | some b =>
        rw [cached] at first
        exact (free b first.1).elim
    · exact fun p l stored => ⟨(windowed.far p l stored).1, broken p l stored⟩
  · have shape : s.setBase price = s := by rw [PriceLevels.setBase, if_neg first]
    rw [shape]
    exact ⟨windowed, rfl, fun whole unset => first ⟨unset, whole⟩⟩

/-- What `remove` does behind the loss of the best cell: it re-centres on the best of the map if that is better. -/
def recentre (s : PriceLevels) : PriceLevels :=
  match s.farBest with
  | some (fb, _) => if fb % kTick = 0#32 ∧ s.beatsBest fb then s.rebase fb else s
  | none => s

/-- Closing a cell is giving it up, then re-centring if it was the cached one. -/
theorem closeCell_vacate {i : Nat} {l : Level} : (s.setCell i l).closeCell i =
    if s.bestCell = some i then (s.vacate i { (s.setCell i l).cellAt i with shares := 0#64 }).recentre
    else s.vacate i { (s.setCell i l).cellAt i with shares := 0#64 } := by
  have twice : (s.setCell i l).setCell i { (s.setCell i l).cellAt i with shares := 0#64 } =
      s.setCell i { (s.setCell i l).cellAt i with shares := 0#64 } := by
    simp [setCell]
  unfold closeCell vacate
  dsimp only
  rw [twice]
  by_cases cached : s.bestCell = some i
  · have cached' : ((s.setCell i { (s.setCell i l).cellAt i with shares := 0#64 }).clearBit i).bestCell = some i := cached
    rw [if_pos cached', if_pos cached', if_pos cached]
    rfl
  · have other : ¬ ((s.setCell i { (s.setCell i l).cellAt i with shares := 0#64 }).clearBit i).bestCell = some i := cached
    rw [if_neg other, if_neg other, if_neg cached]

end Nts.Book.PriceLevels
