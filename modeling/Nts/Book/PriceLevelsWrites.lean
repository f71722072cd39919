import Nts.Book.PriceLevelsMarks

/-!
# Writing `PriceLevels`

Each kind of write (the map, a cell that stays, fills or empties, allocation,
re-centring) keeps the state `Clean` and changes `level?` at one price or nowhere.
-/

namespace Nts.Book.PriceLevels

variable {s t : PriceLevels}

/-! ## Writes to the map -/

/-- Another map whose entries belong there. -/
theorem Clean.setFar (clean : Clean s) {far : Std.TreeMap (BitVec 32) Level}
    (valid : ∀ p l, far[p]? = some l → l.price = p ∧ l.orders ≠ 0#32 ∧ s.cellOf p = none) :
    Clean { s with far } where
  words := clean.words
  storage := clean.storage
  bits := clean.bits
  price := clean.price
  count := clean.count
  best := clean.best
  far := valid
  blank := clean.blank

theorem Clean.farInsert (clean : Clean s) {l : Level} (outside : s.cellOf l.price = none) (peopled : l.orders ≠ 0#32) :
    Clean { s with far := s.far.insert l.price l } := by
  apply clean.setFar
  intro p l' stored
  rw [Std.TreeMap.getElem?_insert_ite] at stored
  split at stored
  · next eq =>
    obtain rfl := Option.some.inj stored
    exact ⟨eq.symm, peopled, eq ▸ outside⟩
  · exact clean.far p l' stored

theorem Clean.level?_farInsert (clean : Clean s) {l : Level} (outside : s.cellOf l.price = none) (peopled : l.orders ≠ 0#32) :
    ({ s with far := s.far.insert l.price l } : PriceLevels).level? = Function.update s.level? l.price (.some l) := by
  rw [← (clean.farInsert outside peopled).listed_eq, listed_farInsert outside, clean.listed_eq]

theorem Clean.farErase (clean : Clean s) (p : BitVec 32) : Clean { s with far := s.far.erase p } := by
  apply clean.setFar
  intro q l stored
  rw [Std.TreeMap.getElem?_erase_ite] at stored
  split at stored
  · cases stored
  · exact clean.far q l stored

theorem Clean.level?_farErase (clean : Clean s) {p : BitVec 32} (outside : s.cellOf p = none) :
    ({ s with far := s.far.erase p } : PriceLevels).level? = Function.update s.level? p none := by
  rw [← (clean.farErase p).listed_eq, listed_farErase outside, clean.listed_eq]

/-! ## Writes to a cell -/

/-- A level that stays is rewritten in its cell. -/
theorem Clean.rewrite (clean : Clean s) {i : Nat} (occupied : s.Occupied i) {l : Level}
    (price : l.price = (s.cellAt i).price) (peopled : l.orders ≠ 0#32) :
    Clean (s.setCell i l) ∧ (s.setCell i l).level? = Function.update s.level? l.price (.some l) := by
  have read := fun j => cellAt_setCell occupied.lt l j
  have same : ∀ j, (s.setCell i l).Occupied j ↔ s.Occupied j := by
    intro j
    rw [Occupied, read]
    by_cases eq : j = i
    · rw [if_pos eq, eq]
      exact ⟨fun _ => occupied, fun _ => peopled⟩
    · rw [if_neg eq]
      exact Iff.rfl
  have marks := clean.marks.setCell (i := i) (l := l) fun _ => price
  have placed : Placed (s.setCell i l) := marks.placed (fun j => (clean.bits j).trans (same j).symm) clean.count
    fun p l stored => (clean.far p l stored).2.1
  refine ⟨⟨placed, ?_⟩, ?_⟩
  · intro j free
    rw [same] at free
    rw [read, if_neg (by rintro rfl; exact free occupied)]
    exact clean.blank j free
  · have cell := clean.price i occupied
    have marked : s.Marked i := (clean.bits i).mpr occupied
    rw [← price] at cell
    rw [← placed.listed_eq, clean.marks.listed_setCell cell, if_pos marked, clean.listed_eq]

/-- A level enters its free cell. -/
theorem Clean.occupy (clean : Clean s) (allocated : s.Allocated) {i : Nat} {l : Level} (cell : s.cellOf l.price = some i)
    (free : ¬ s.Occupied i) (peopled : l.orders ≠ 0#32) :
    Clean (s.occupy i l) ∧ (s.occupy i l).level? = Function.update s.level? l.price (.some l) := by
  obtain ⟨marks, listed⟩ := clean.marks.occupy allocated cell
  have bound : i < s.cells.size := by
    rw [allocated]
    exact cellOf_lt cell
  have inWords : i < s.bits.size * 64 := by
    rw [clean.words_allocated allocated]
    exact bound
  have read : ∀ j, (s.occupy i l).cellAt j = if j = i then l else s.cellAt j := by
    intro j
    rw [occupy_cellAt, cellAt_setCell bound]
  have occupied : ∀ j, (s.occupy i l).Occupied j ↔ j = i ∨ s.Occupied j := by
    intro j
    rw [Occupied, read]
    by_cases eq : j = i
    · simpa only [eq, if_true, true_or, iff_true] using peopled
    · simp only [eq, if_false, false_or]
      exact Iff.rfl
  have placed : Placed (s.occupy i l) := by
    refine marks.placed ?_ ?_ ?_
    · intro j
      rw [Marked, occupy_bits, occupied, Bitmap.test_set inWords, Bool.or_eq_true, decide_eq_true_eq, clean.bits]
    · have clear : Bitmap.test s.bits i = false := by
        rw [← Bool.not_eq_true, clean.bits]
        exact free
      rw [occupy_arrayCount, occupy_bits, Bitmap.length_up_set inWords clear, clean.count]
    · rw [occupy_far]
      exact fun p l stored => (clean.far p l stored).2.1
  refine ⟨⟨placed, ?_⟩, ?_⟩
  · intro j free'
    have old := not_or.mp (mt (occupied j).mpr free')
    rw [read, if_neg old.1]
    exact clean.blank j old.2
  · rw [← placed.listed_eq, listed, clean.listed_eq]

/-- A level leaves its cell. -/
theorem Clean.vacate (clean : Clean s) {i : Nat} (occupied : s.Occupied i) {l : Level} (orders : l.orders = 0#32)
    (shares : l.shares = 0#64) :
    Clean (s.vacate i l) ∧ (s.vacate i l).level? = Function.update s.level? (s.cellAt i).price none := by
  obtain ⟨marks, listed⟩ := clean.marks.vacate (clean.price i occupied) l
  have read : ∀ j, (s.vacate i l).cellAt j = if j = i then l else s.cellAt j := by
    intro j
    rw [vacate_cellAt, cellAt_setCell occupied.lt]
  have left : ∀ j, (s.vacate i l).Occupied j ↔ j ≠ i ∧ s.Occupied j := by
    intro j
    rw [Occupied, read]
    by_cases eq : j = i
    · simp [eq, orders]
    · simp only [eq, if_false, ne_eq, not_false_eq_true, true_and]
      exact Iff.rfl
  have placed : Placed (s.vacate i l) := by
    refine marks.placed ?_ ?_ ?_
    · intro j
      rw [Marked, vacate_bits, left, Bitmap.test_clear, Bool.and_eq_true, Bool.not_eq_true', decide_eq_false_iff_not,
        clean.bits]
    · have fewer := Bitmap.length_up_clear ((clean.bits i).mpr occupied)
      have count := clean.count
      rw [vacate_arrayCount, vacate_bits]
      omega
    · rw [vacate_far]
      exact fun p l stored => (clean.far p l stored).2.1
  refine ⟨⟨placed, ?_⟩, ?_⟩
  · intro j free
    by_cases eq : j = i
    · rw [read, if_pos eq]
      exact shares
    · rw [read, if_neg eq]
      exact clean.blank j fun old => free ((left j).mpr ⟨eq, old⟩)
  · rw [← placed.listed_eq, listed, clean.listed_eq]

/-! ## Allocation -/

theorem ensureCells_level? (s : PriceLevels) : s.ensureCells.level? = s.level? := by
  funext p
  simp only [level?, ensureCells_cellOf, ensureCells_cellAt, ensureCells_far]

/-- Allocating the arrays changes no level. -/
theorem Clean.ensureCells (clean : Clean s) : Clean s.ensureCells ∧ s.ensureCells.Allocated := by
  obtain ⟨marks, allocated, _⟩ := clean.marks.ensureCells
  have marked := clean.marks.ensureCells_marked
  have occupied : ∀ i, s.ensureCells.Occupied i ↔ s.Occupied i := by
    intro i
    rw [Occupied, ensureCells_cellAt]
    exact Iff.rfl
  refine ⟨⟨marks.placed ?_ ?_ ?_, ?_⟩, allocated⟩
  · exact fun i => (marked i).trans ((clean.bits i).trans (occupied i).symm)
  · have distinct : (Bitmap.up s.bits).Nodup := (Bitmap.up_sorted s.bits).imp fun less => Nat.ne_of_lt less
    rw [ensureCells_arrayCount, clean.count]
    exact Bitmap.length_up distinct fun i => (Bitmap.mem_up s.bits i).trans (marked i).symm
  · rw [ensureCells_far]
    exact fun p l stored => (clean.far p l stored).2.1
  · intro i free
    rw [ensureCells_cellAt]
    exact clean.blank i (mt (occupied i).mpr free)

/-! ## Re-centring -/

/-- A level that is nowhere yet is placed. -/
theorem Clean.place (clean : Clean s) (allocated : s.Allocated) {l : Level} (peopled : l.orders ≠ 0#32)
    (absent : s.level? l.price = none) :
    Clean (s.place l) ∧ (s.place l).Allocated ∧ (s.place l).level? = Function.update s.level? l.price (.some l) := by
  cases cell : s.cellOf l.price with
  | none =>
    have placed : s.place l = { s with far := s.far.insert l.price l } := by
      simp only [PriceLevels.place, cell]
    rw [placed]
    exact ⟨clean.farInsert cell peopled, allocated, clean.level?_farInsert cell peopled⟩
  | some i =>
    have placed : s.place l = s.occupy i l := by
      simp only [PriceLevels.place, cell]
      rfl
    rw [placed]
    obtain ⟨clean', level⟩ := clean.occupy allocated cell (free_of_absent cell absent) peopled
    refine ⟨clean', ?_, level⟩
    rw [Allocated, occupy_cells, occupy_span, setCell, Array.size_setIfInBounds]
    exact allocated

/-- Levels with distinct new prices are all placed. -/
theorem Clean.foldl_place {ls : List Level} (clean : Clean s) (allocated : s.Allocated)
    (peopled : ∀ l ∈ ls, l.orders ≠ 0#32) (distinct : (ls.map Level.price).Nodup) (absent : ∀ l ∈ ls, s.level? l.price = none) :
    Clean (ls.foldl PriceLevels.place s) := by
  induction ls generalizing s with
  | nil => exact clean
  | cons l ls ih =>
    rw [List.map_cons, List.nodup_cons] at distinct
    obtain ⟨clean', allocated', level⟩ := clean.place allocated (peopled l List.mem_cons_self) (absent l List.mem_cons_self)
    have other : ∀ l' ∈ ls, l'.price ≠ l.price := fun l' member eq =>
      distinct.1 (eq ▸ List.mem_map_of_mem member)
    apply ih clean' allocated' (fun l' member => peopled l' (List.mem_cons_of_mem _ member)) distinct.2
    intro l' member
    rw [level, Function.update_of_ne (other l' member)]
    exact absent l' (List.mem_cons_of_mem _ member)

/-- `rebase` starts putting back from a state without levels. -/
theorem Clean.emptied (clean : Clean s) (centre : BitVec 32) :
    Clean (s.emptied centre) ∧ (s.emptied centre).Allocated ∧ ∀ p, (s.emptied centre).level? p = none := by
  obtain ⟨marks, allocated, absent, _, ⟨bits, far⟩, read⟩ := clean.marks.emptied centre
  have blank : ∀ i, ((s.emptied centre).cellAt i).orders = 0#32 ∧ ((s.emptied centre).cellAt i).shares = 0#64 := by
    intro i
    rw [read]
    split
    · exact ⟨rfl, rfl⟩
    · next free =>
      have free := mt (clean.bits i).mpr free
      exact ⟨not_not.mp free, clean.blank i free⟩
  have placed : Placed (s.emptied centre) := by
    refine marks.placed ?_ ?_ ?_
    · intro i
      refine iff_of_false ?_ (not_not.mpr (blank i).1)
      rw [Marked, bits, Bitmap.test_replicate]
      exact Bool.false_ne_true
    · rw [bits, Bitmap.up_replicate]
      rfl
    · intro p l stored
      rw [far, Std.TreeMap.getElem?_emptyc] at stored
      cases stored
  refine ⟨⟨placed, fun i _ => (blank i).2⟩, allocated, ?_⟩
  rw [← placed.listed_eq]
  exact absent

/-- **Re-centring** keeps every level and puts a whole-cent centre inside the window. -/
theorem Clean.rebase (clean : Clean s) (centre : BitVec 32) :
    Clean (s.rebase centre) ∧ (s.rebase centre).level? = s.level? := by
  obtain ⟨empty, allocated, absent⟩ := clean.emptied centre
  have peopled : ∀ l ∈ s.gathered, l.orders ≠ 0#32 := by
    intro l member
    rw [clean.marks.mem_gathered, clean.listed_eq] at member
    exact (clean.level?_valid member).2
  have final := empty.foldl_place allocated peopled clean.marks.gathered_distinct fun l _ => absent l.price
  refine ⟨final, ?_⟩
  rw [← clean.listed_eq, ← (clean.marks.rebase centre).2]
  exact final.listed_eq.symm

end Nts.Book.PriceLevels
