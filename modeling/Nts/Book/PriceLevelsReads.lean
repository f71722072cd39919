import Nts.Book.PriceLevelsMarks

/-!
# Reading `PriceLevels`

`levels` lists exactly the levels of the marked cells and of the map, strictly best first. Where bitmap and cells
agree these are the stored levels; `size` counts them and `best` is the head of the list. Only `Placed` is needed.
-/

namespace Nts.Book.PriceLevels

variable {s : PriceLevels}

/-! ## The listing -/

theorem Marks.mem_arrayLevels (marks : Marks s) (l : Level) : l ∈ s.arrayLevels ↔ ∃ i, s.Marked i ∧ s.cellAt i = l := by
  unfold arrayLevels
  split
  · next unallocated => simp [marks.not_marked_of_isEmpty unallocated]
  · split <;> simp only [List.mem_map, Bitmap.mem_up, Bitmap.mem_down] <;> exact Iff.rfl

theorem mem_farLevels (l : Level) : l ∈ s.farLevels ↔ ∃ p : BitVec 32, s.far[p]? = some l := by
  unfold farLevels
  split <;>
    simp only [List.mem_map, List.mem_reverse, Prod.exists, Std.TreeMap.mem_toList_iff_getElem?_eq_some, exists_eq_right]

/-- `levels` lists what is listed under some price. -/
theorem Marks.mem_levels (marks : Marks s) (l : Level) : l ∈ s.levels ↔ s.listed l.price = some l := by
  rw [levels, SortedLists.mem_merge, marks.mem_arrayLevels, mem_farLevels, marks.listed_eq_some]
  constructor
  · rintro (⟨i, marked, here⟩ | ⟨p, stored⟩)
    · exact Or.inl ⟨i, marked, here, rfl⟩
    · exact Or.inr ((marks.far p l stored).1 ▸ stored)
  · rintro (⟨i, marked, here, _⟩ | stored)
    · exact Or.inl ⟨i, marked, here⟩
    · exact Or.inr ⟨l.price, stored⟩

/-- `levels` lists the stored levels. -/
theorem Placed.mem_levels (placed : Placed s) (l : Level) : l ∈ s.levels ↔ s.level? l.price = some l := by
  rw [placed.marks.mem_levels, placed.listed_eq]

theorem Marks.arrayLevels_sorted (marks : Marks s) : s.arrayLevels.Pairwise fun a b => s.better a.price b.price := by
  have walk : ∀ is : List Nat, is.Pairwise s.Ahead → (∀ i ∈ is, s.Marked i) →
      (is.map s.cellAt).Pairwise fun a b => s.better a.price b.price := by
    intro is sorted marked
    apply List.pairwise_map.mpr
    apply sorted.imp_of_mem
    intro i j hi hj ahead
    exact (better_iff_ahead (marks.price i (marked i hi)) (marks.price j (marked j hj))).mpr ahead
  unfold arrayLevels
  split
  · exact .nil
  · cases side : s.side with
    | buy =>
      exact walk _ ((Bitmap.down_sorted _).imp fun more => by simpa [Ahead, side] using more) fun i member =>
        (Bitmap.mem_down _ i).mp member
    | sell =>
      exact walk _ ((Bitmap.up_sorted _).imp fun less => by simpa [Ahead, side] using less) fun i member =>
        (Bitmap.mem_up _ i).mp member

theorem Marks.far_sorted (marks : Marks s) : s.far.toList.Pairwise fun a b => a.2.price < b.2.price := by
  have price : ∀ e ∈ s.far.toList, e.2.price = e.1 := fun e member =>
    (marks.far e.1 e.2 (Std.TreeMap.mem_toList_iff_getElem?_eq_some.mp member)).1
  apply s.far.toList_sorted.imp_of_mem
  intro a b ha hb less
  rw [price a ha, price b hb]
  exact less

theorem Marks.farLevels_sorted (marks : Marks s) : s.farLevels.Pairwise fun a b => s.better a.price b.price := by
  unfold farLevels
  cases side : s.side with
  | buy =>
    apply List.pairwise_map.mpr
    apply List.pairwise_reverse.mpr
    exact marks.far_sorted.imp fun less => by simpa [better, side] using less
  | sell =>
    apply List.pairwise_map.mpr
    exact marks.far_sorted.imp fun less => by simpa [better, side] using less

/-- `levels` lists them strictly best first. -/
theorem Marks.levels_sorted (marks : Marks s) : s.levels.Pairwise fun a b => s.better a.price b.price := by
  apply SortedLists.pairwise_merge (fun a b c ab bc => better_trans (a := a.price) (b := b.price) ab bc)
    marks.arrayLevels_sorted marks.farLevels_sorted
  intro a ha f hf
  obtain ⟨i, marked, rfl⟩ := (marks.mem_arrayLevels a).mp ha
  obtain ⟨p, stored⟩ := (mem_farLevels f).mp hf
  obtain ⟨key, outside⟩ := marks.far p f stored
  apply better_total
  intro eq
  rw [key] at eq
  rw [← eq, marks.price i marked] at outside
  cases outside

theorem Placed.levels_sorted (placed : Placed s) : s.levels.Pairwise fun a b => s.better a.price b.price :=
  placed.marks.levels_sorted

/-- `size` counts them. -/
theorem Placed.size_eq (placed : Placed s) : s.size = s.levels.length := by
  have far : s.farLevels.length = s.far.size := by
    unfold farLevels
    split <;> simp only [List.length_map, List.length_reverse, Std.TreeMap.length_toList]
  have array : s.arrayLevels.length = s.arrayCount := by
    rw [placed.count]
    unfold arrayLevels
    split
    · next unallocated =>
      rw [eq_comm, List.length_nil, List.length_eq_zero_iff, List.eq_nil_iff_forall_not_mem]
      intro i member
      exact not_occupied_of_isEmpty unallocated i ((placed.bits i).mp ((Bitmap.mem_up _ i).mp member))
    · split
      · rw [List.length_map]
        exact Bitmap.length_up ((Bitmap.down_sorted _).imp fun more => Nat.ne_of_gt more) (Bitmap.mem_down _)
      · rw [List.length_map]
  rw [size, levels, SortedLists.length_merge, far, array]

/-! ## The best level -/

theorem mem_farBest {fb : BitVec 32} {l : Level} (found : s.farBest = some (fb, l)) : s.far[fb]? = some l := by
  apply Std.TreeMap.mem_toList_iff_getElem?_eq_some.mp
  unfold farBest at found
  split at found
  · exact List.mem_of_getLast? found
  · exact List.mem_of_head? found

/-- The best entry of the map comes before its other entries. -/
theorem Marks.farBest_first (marks : Marks s) {fb : BitVec 32} {l : Level} (found : s.farBest = some (fb, l))
    {p : BitVec 32} {l' : Level} (stored : s.far[p]? = some l') : p = fb ∨ s.better fb p := by
  have key : ∀ {p : BitVec 32} {l : Level}, s.far[p]? = some l → l.price = p := fun stored => (marks.far _ _ stored).1
  have head : s.farLevels.head? = some l := by
    unfold farBest at found
    unfold farLevels
    split at found <;> simp only [List.head?_map, List.head?_reverse, *, Option.map_some]
  have sorted := marks.farLevels_sorted
  have member := (mem_farLevels l').mpr ⟨p, stored⟩
  cases listing : s.farLevels with
  | nil =>
    rw [listing] at member
    cases member
  | cons a rest =>
    rw [listing] at head member sorted
    obtain rfl := Option.some.inj head
    rcases List.mem_cons.mp member with rfl | later
    · exact Or.inl ((key stored).symm.trans (key (mem_farBest found)))
    · have before := (List.pairwise_cons.mp sorted).1 l' later
      rw [key (mem_farBest found), key stored] at before
      exact Or.inr before

theorem farBest_none (found : s.farBest = none) (p : BitVec 32) : s.far[p]? = none := by
  have empty : s.far.toList = [] := by
    unfold farBest at found
    split at found
    · exact List.getLast?_eq_none_iff.mp found
    · exact List.head?_eq_none_iff.mp found
  rw [Option.eq_none_iff_forall_ne_some]
  intro l stored
  rw [← Std.TreeMap.mem_toList_iff_getElem?_eq_some, empty] at stored
  cases stored

/-- A level is the best of the side: stored, and before all others. -/
def IsTop (s : PriceLevels) (l : Level) : Prop :=
  s.level? l.price = some l ∧ ∀ p l', s.level? p = some l' → p = l.price ∨ s.better l.price p

/-- `best` returns the best level, from the array or from the map. -/
theorem Placed.best_spec (placed : Placed s) :
    match s.best with
    | none => ∀ p, s.level? p = none
    | some l => s.IsTop l := by
  have cells : ∀ {b : Nat}, s.bestCell = some b → s.Occupied b ∧ ∀ p l, s.level? p = some l → (s.far[p]? = some l) ∨
      p = (s.cellAt b).price ∨ s.better (s.cellAt b).price p := by
    intro b cached
    have best := placed.best
    rw [cached] at best
    refine ⟨best.1, fun p l stored => ?_⟩
    rcases placed.level?_eq_some.mp stored with ⟨i, occupied, rfl, rfl⟩ | far
    · rcases best.2 i occupied with rfl | ahead
      · exact Or.inr (Or.inl rfl)
      · exact Or.inr (Or.inr ((better_iff_ahead (placed.price b best.1) (placed.price i occupied)).mpr ahead))
    · exact Or.inl far
  have noCells : s.bestCell = none → ∀ p l, s.level? p = some l → s.far[p]? = some l := by
    intro cached p l stored
    have best := placed.best
    rw [cached] at best
    rcases placed.level?_eq_some.mp stored with ⟨i, occupied, _⟩ | far
    · exact (best i occupied).elim
    · exact far
  have fromFar : ∀ {fb : BitVec 32} {l : Level}, s.farBest = some (fb, l) → l.price = fb ∧ s.level? fb = some l := by
    intro fb l found
    have stored := mem_farBest found
    exact ⟨(placed.far fb l stored).1, placed.level?_eq_some.mpr (Or.inr stored)⟩
  unfold PriceLevels.best
  cases cached : s.bestCell with
  | none =>
    cases found : s.farBest with
    | none =>
      intro p
      rw [Option.eq_none_iff_forall_ne_some]
      intro l stored
      have far := noCells cached p l stored
      rw [farBest_none found] at far
      cases far
    | some e =>
      obtain ⟨fb, l⟩ := e
      obtain ⟨rfl, stored⟩ := fromFar found
      exact ⟨stored, fun p l' stored' => placed.marks.farBest_first found (noCells cached p l' stored')⟩
  | some b =>
    obtain ⟨occupied, first⟩ := cells cached
    have own := level?_cell (placed.price b occupied) occupied
    cases found : s.farBest with
    | none =>
      refine ⟨own, fun p l' stored' => ?_⟩
      rcases first p l' stored' with far | done
      · rw [farBest_none found] at far
        cases far
      · exact done
    | some e =>
      obtain ⟨fb, l⟩ := e
      obtain ⟨rfl, stored⟩ := fromFar found
      dsimp only
      by_cases beats : s.better l.price (s.cellAt b).price
      · rw [if_pos beats]
        refine ⟨stored, fun p l' stored' => ?_⟩
        rcases first p l' stored' with far | rfl | later
        · exact placed.marks.farBest_first found far
        · exact Or.inr beats
        · exact Or.inr (better_trans beats later)
      · rw [if_neg beats]
        refine ⟨own, fun p l' stored' => ?_⟩
        rcases first p l' stored' with far | done
        · have ne : (s.cellAt b).price ≠ l.price := by
            intro eq
            have outside := (placed.far _ _ (mem_farBest found)).2.2
            rw [← eq, placed.price b occupied] at outside
            cases outside
          have wins := (better_total ne).resolve_right beats
          rcases placed.marks.farBest_first found far with rfl | later
          · exact Or.inr wins
          · exact Or.inr (better_trans wins later)
        · exact done

/-- **`best`** is the head of `levels`. -/
theorem Placed.best_eq (placed : Placed s) : s.best = s.levels.head? := by
  have spec := placed.best_spec
  cases found : s.best with
  | none =>
    rw [found] at spec
    rw [eq_comm, List.head?_eq_none_iff, List.eq_nil_iff_forall_not_mem]
    intro l member
    rw [placed.mem_levels, spec] at member
    cases member
  | some l =>
    rw [found] at spec
    obtain ⟨stored, first⟩ := spec
    apply Eq.symm
    apply SortedLists.head?_eq_some (fun a b => better_asymm) placed.levels_sorted ((placed.mem_levels l).mpr stored)
    intro l' member
    have here := (placed.mem_levels l').mp member
    rcases first l'.price l' here with eq | later
    · rw [eq, stored] at here
      exact Or.inl (Option.some.inj here).symm
    · exact Or.inr later

end Nts.Book.PriceLevels
