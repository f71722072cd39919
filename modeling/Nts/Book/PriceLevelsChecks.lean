import Nts.Book.PriceLevelsReads

/-!
# The check of a ladder

`check_invariants` looks at every cell and at every entry of the map. `Checked` is what it has seen when it
passes, on any state whatever. Together with arrays of the right sizes that is the placement of every level; of a
ladder whose levels sit where they belong it can only find out that a level is empty.
-/

namespace Nts.Book.PriceLevels

variable {s : PriceLevels}

theorem ahead_asymm {i j : Nat} (ij : s.Ahead i j) : ¬ s.Ahead j i := by
  unfold Ahead at *
  cases side : s.side <;> simp only [side] at ij ⊢ <;> omega

/-- There is one best cell. -/
theorem IsBest.unique {a b : Option Nat} (ha : s.IsBest a) (hb : s.IsBest b) : a = b := by
  cases a with
  | none =>
    cases b with
    | none => rfl
    | some j => exact absurd hb.1 (ha j)
  | some i =>
    cases b with
    | none => exact absurd ha.1 (hb i)
    | some j =>
      rcases ha.2 j hb.1 with eq | before
      · rw [eq]
      · rcases hb.2 i ha.1 with eq | after
        · rw [eq]
        · exact absurd after (ahead_asymm before)

/-! ## The loop over the cells -/

instance (s : PriceLevels) (i : Nat) : Decidable (s.Occupied i) := inferInstanceAs (Decidable (_ ≠ _))

/-- A cell that the loop goes past: bit and orders agree, and a level in it has shares and its own price. -/
def CellPasses (s : PriceLevels) (i : Nat) : Prop :=
  (s.Marked i ↔ s.Occupied i) ∧ (s.Occupied i → (s.cellAt i).shares ≠ 0#64 ∧ s.cellOf (s.cellAt i).price = some i)

instance (s : PriceLevels) (i : Nat) : Decidable (s.CellPasses i) := inferInstanceAs (Decidable (_ ∧ _))

/-- One round of the loop. -/
theorem countCells_cons (s : PriceLevels) (i : Nat) (is : List Nat) (counted : Nat) : s.countCells (i :: is) counted =
    if s.CellPasses i then s.countCells is (if s.Marked i then counted + 1 else counted) else none := by
  have bit : Bitmap.test s.bits i = decide (s.Marked i) := Bool.decide_eq_true.symm
  have occ : ((s.cellAt i).orders != 0#32) = decide (s.Occupied i) := by
    rw [Bool.eq_iff_iff, bne_iff_ne, decide_eq_true_eq, Occupied]
  simp only [countCells, bit, occ, CellPasses]
  by_cases occupied : s.Occupied i
  · by_cases marked : s.Marked i
    · by_cases empty : (s.cellAt i).shares = 0#64
      · simp [occupied, marked, empty]
      · by_cases here : s.cellOf (s.cellAt i).price = some i <;> simp [occupied, marked, empty, here]
    · simp [occupied, marked]
  · by_cases marked : s.Marked i <;> simp [occupied, marked]

/-- The loop comes to its end when every cell passes, and has then counted the marked ones. -/
theorem countCells_eq_some (s : PriceLevels) (is : List Nat) (counted total : Nat) :
    s.countCells is counted = some total ↔
      (∀ i ∈ is, s.CellPasses i) ∧ total = counted + (is.filter (Bitmap.test s.bits)).length := by
  induction is generalizing counted with
  | nil =>
    rw [countCells, Option.some.injEq]
    exact ⟨fun eq => ⟨fun i member => absurd member List.not_mem_nil, eq.symm⟩, fun all => all.2.symm⟩
  | cons i is ih =>
    rw [countCells_cons, List.forall_mem_cons]
    by_cases passes : s.CellPasses i
    · rw [if_pos passes, ih]
      by_cases marked : s.Marked i
      · rw [if_pos marked, List.filter_cons_of_pos marked, List.length_cons]
        simp only [passes, true_and, Nat.add_assoc, Nat.add_comm 1]
      · rw [if_neg marked, List.filter_cons_of_neg marked]
        simp only [passes, true_and]
    · rw [if_neg passes]
      exact iff_of_false (fun refused => by cases refused) fun all => passes all.1.1

/-! ## What a passed check has seen -/

/-- What `check_invariants` has seen when it passes. -/
structure Checked (s : PriceLevels) : Prop where
  cells : ∀ i < s.cells.size, s.CellPasses i
  count : s.arrayCount = ((List.range s.cells.size).filter (Bitmap.test s.bits)).length
  best : s.scanBest = s.bestCell
  far : ∀ (p : BitVec 32) (l : Level), s.far[p]? = some l →
    l.orders ≠ 0#32 ∧ l.shares ≠ 0#64 ∧ l.price = p ∧ s.cellOf p = none

theorem checkInvariants_iff (s : PriceLevels) : s.checkInvariants = true ↔ s.Checked := by
  have loop := s.countCells_eq_some (List.range s.cells.size) 0
  simp only [List.mem_range, Nat.zero_add] at loop
  have entry : ∀ (p : BitVec 32) (l : Level),
      ((if l.orders = 0#32 ∨ l.shares = 0#64 ∨ l.price ≠ p then false else (s.cellOf p).isNone) = true ↔
        l.orders ≠ 0#32 ∧ l.shares ≠ 0#64 ∧ l.price = p ∧ s.cellOf p = none) := by
    intro p l
    split
    · next fails =>
      refine iff_of_false Bool.false_ne_true fun all => ?_
      rcases fails with orders | shares | price
      · exact all.1 orders
      · exact all.2.1 shares
      · exact price all.2.2.1
    · next passes =>
      simp only [not_or, not_not] at passes
      rw [Option.isNone_iff_eq_none]
      exact ⟨fun outside => ⟨passes.1, passes.2.1, passes.2.2, outside⟩, fun all => all.2.2.2⟩
  unfold checkInvariants
  constructor
  · intro passed
    cases counted : s.countCells (List.range s.cells.size) 0 with
    | none => simp [counted] at passed
    | some total =>
      obtain ⟨cells, count⟩ := (loop total).mp counted
      simp only [counted] at passed
      split at passed
      · cases passed
      · next agrees =>
        split at passed
        · cases passed
        · next scanned =>
          refine ⟨cells, (not_not.mp agrees).symm.trans count, not_not.mp scanned, fun p l stored => ?_⟩
          have member := Std.TreeMap.mem_toList_iff_getElem?_eq_some.mpr stored
          exact (entry p l).mp (List.all_eq_true.mp passed (p, l) member)
  · intro checked
    have counted := (loop _).mpr ⟨checked.cells, rfl⟩
    simp only [counted, ← checked.count, checked.best, ne_eq, not_true_eq_false, if_false]
    rw [List.all_eq_true]
    rintro ⟨p, l⟩ member
    exact (entry p l).mpr (checked.far p l (Std.TreeMap.mem_toList_iff_getElem?_eq_some.mp member))

/-- Cell array and bitmap are not there or span the window. -/
def Arrays (s : PriceLevels) : Prop :=
  s.cells.size = 0 ∧ s.bits.size = 0 ∨ s.cells.size = s.span.toNat ∧ s.bits.size * 64 = s.span.toNat

instance (s : PriceLevels) : Decidable s.Arrays := inferInstanceAs (Decidable (_ ∨ _))

/-- The cells behind the array are neither marked nor occupied. -/
theorem Checked.bits (checked : Checked s) (arrays : s.Arrays) (i : Nat) : s.Marked i ↔ s.Occupied i := by
  by_cases inside : i < s.cells.size
  · exact (checked.cells i inside).1
  · refine iff_of_false (fun marked => inside ?_) (fun occupied => inside occupied.lt)
    have bound := Bitmap.lt_of_test marked
    rcases arrays with ⟨_, words⟩ | ⟨_, words⟩ <;> omega

/-- Where every level sits in its place the loop counts the levels of the array. -/
theorem occupied_count (bits : ∀ i, s.Marked i ↔ s.Occupied i) :
    ((List.range s.cells.size).filter (Bitmap.test s.bits)).length = (Bitmap.up s.bits).length := by
  apply Bitmap.length_up (List.nodup_range.filter _)
  intro i
  rw [List.mem_filter, List.mem_range]
  exact ⟨fun member => member.2, fun marked => ⟨((bits i).mp marked).lt, marked⟩⟩

/-- A passed check places every level. -/
theorem Checked.placed (checked : Checked s) (arrays : s.Arrays) (words : 64 ≤ s.span.toNat ∧ s.span.toNat % 64 = 0) :
    Placed s where
  words := words
  storage := arrays
  bits := checked.bits arrays
  price := fun i occupied => ((checked.cells i occupied.lt).2 occupied).2
  count := checked.count.trans (occupied_count (checked.bits arrays))
  best := checked.best ▸ (isBest_iff_isFirst (checked.bits arrays) _).mpr (isFirst_scan s)
  far := fun p l stored => ⟨(checked.far p l stored).2.2.1, (checked.far p l stored).1, (checked.far p l stored).2.2.2⟩

/-! ## The check of a ladder whose levels sit in their places -/

/-- Every stored level has shares. -/
def Full (s : PriceLevels) : Prop := ∀ (p : BitVec 32) (l : Level), s.level? p = some l → l.shares ≠ 0#64

theorem Placed.full_iff (placed : Placed s) : s.Full ↔
    (∀ i, s.Occupied i → (s.cellAt i).shares ≠ 0#64) ∧
      ∀ (p : BitVec 32) (l : Level), s.far[p]? = some l → l.shares ≠ 0#64 := by
  constructor
  · intro full
    refine ⟨fun i occupied => ?_, fun p l stored => full p l (placed.level?_eq_some.mpr (Or.inr stored))⟩
    exact full _ _ (level?_cell (placed.price i occupied) occupied)
  · rintro ⟨cells, far⟩ p l stored
    rcases placed.level?_eq_some.mp stored with ⟨i, occupied, rfl, _⟩ | stored
    · exact cells i occupied
    · exact far p l stored

/-- `check_invariants` passes exactly when no level is empty. -/
theorem Placed.checkInvariants_iff (placed : Placed s) : s.checkInvariants = true ↔ s.Full := by
  rw [PriceLevels.checkInvariants_iff, placed.full_iff]
  constructor
  · intro checked
    exact ⟨fun i occupied => ((checked.cells i occupied.lt).2 occupied).1, fun p l stored => (checked.far p l stored).2.1⟩
  · rintro ⟨cells, far⟩
    refine ⟨fun i _ => ⟨placed.bits i, fun occupied => ⟨cells i occupied, placed.price i occupied⟩⟩,
      placed.count.trans (occupied_count placed.bits).symm,
      ((isBest_iff_isFirst placed.bits _).mpr (isFirst_scan s)).unique placed.best, fun p l stored => ?_⟩
    obtain ⟨price, orders, outside⟩ := placed.far p l stored
    exact ⟨orders, far p l stored, price, outside⟩

/-! ## What a passed check says about the reads -/

/-- A ladder without cells reads like one without a window. -/
theorem Checked.placed_windowless (checked : Checked s) (cells : s.cells.size = 0) (bits : s.bits.size = 0) :
    Placed { s with span := 64#32, baseCents := kNoBase } := by
  have arrays : s.Arrays := Or.inl ⟨cells, bits⟩
  have free : ∀ i, ¬ s.Occupied i := fun i occupied => absurd occupied.lt (by omega)
  have outside : ∀ p, cellOf { s with span := 64#32, baseCents := kNoBase } p = none := fun p => cellOf_unset rfl p
  refine ⟨(by decide : 64 ≤ (64#32).toNat ∧ (64#32).toNat % 64 = 0), Or.inl ⟨cells, bits⟩, checked.bits arrays,
    fun i occupied => (free i occupied).elim,
    checked.count.trans (occupied_count (checked.bits arrays)), ?_, fun p l stored => ?_⟩
  · have best := (isBest_iff_isFirst (checked.bits arrays) _).mpr (isFirst_scan s)
    rw [checked.best] at best
    change IsBest _ s.bestCell
    cases cached : s.bestCell with
    | none => exact free
    | some b =>
      rw [cached] at best
      exact (free b best.1).elim
  · exact ⟨(checked.far p l stored).2.2.1, (checked.far p l stored).1, outside p⟩

/-- **A passed check** means that `levels` is strictly best first and `best` its head, whatever the state. -/
theorem Checked.reads (checked : Checked s) (arrays : s.Arrays) :
    (s.levels.Pairwise fun l l' => s.better l.price l'.price) ∧ s.best = s.levels.head? := by
  by_cases empty : s.cells.size = 0 ∧ s.bits.size = 0
  · have placed := checked.placed_windowless empty.1 empty.2
    exact ⟨placed.levels_sorted, placed.best_eq⟩
  · have spans := arrays.resolve_left empty
    have placed := checked.placed arrays (by omega)
    exact ⟨placed.levels_sorted, placed.best_eq⟩

end Nts.Book.PriceLevels
