import Nts.Book.PriceLevelsMap

/-!
# Re-centring any ladder

`rebase` is run when the window has drifted off the market, but it never looks at the market: around whatever
whole-cent price it is asked for, it sorts the levels into the array and the map again. Which levels
there are, and what `best`, `size` and `levels` say about them, stays as it was.
-/

namespace Nts.Book.PriceLevels

/-- The level sits in an occupied cell. -/
def InArray (s : PriceLevels) (l : Level) : Prop := ∃ i, s.Occupied i ∧ s.cellAt i = l

/-- The level sits in the map. -/
def InFar (s : PriceLevels) (l : Level) : Prop := ∃ p : BitVec 32, s.far[p]? = some l

/-- The ladder has the level, in the array or in the map. -/
def Has (s : PriceLevels) (l : Level) : Prop := s.InArray l ∨ s.InFar l

/-- A whole-cent price inside the window. -/
def InWindow (s : PriceLevels) (price : BitVec 32) : Prop :=
  price.toNat % 100 = 0 ∧ s.baseCents.toNat ≤ price.toNat / 100 ∧ price.toNat / 100 < s.baseCents.toNat + s.span.toNat

variable {s t : PriceLevels}

theorem inWindow_iff (set : s.baseCents ≠ kNoBase) (price : BitVec 32) : s.InWindow price ↔ ∃ i, s.cellOf price = some i := by
  simp only [cellOf_eq_some]
  constructor
  · rintro ⟨whole, least, less⟩
    exact ⟨price.toNat / 100 - s.baseCents.toNat, set, by omega, by omega⟩
  · rintro ⟨i, _, inside, cents⟩
    exact ⟨by omega, by omega, by omega⟩

/-- A level the ladder has is stored under its price. -/
theorem Placed.has_iff (placed : Placed s) (l : Level) : s.Has l ↔ s.level? l.price = some l := by
  rw [placed.level?_eq_some, Has, InArray, InFar]
  constructor
  · rintro (⟨i, occupied, here⟩ | ⟨p, stored⟩)
    · exact Or.inl ⟨i, occupied, here, rfl⟩
    · exact Or.inr ((placed.far p l stored).1 ▸ stored)
  · rintro (⟨i, occupied, here, _⟩ | stored)
    · exact Or.inl ⟨i, occupied, here⟩
    · exact Or.inr ⟨l.price, stored⟩

/-- A level sits in the array exactly when its price has a cell. -/
theorem Placed.inArray_iff (placed : Placed s) {l : Level} (has : s.Has l) :
    s.InArray l ↔ ∃ i, s.cellOf l.price = some i := by
  constructor
  · rintro ⟨i, occupied, rfl⟩
    exact ⟨i, placed.price i occupied⟩
  · rintro ⟨i, cell⟩
    rcases has with inside | ⟨p, stored⟩
    · exact inside
    · obtain ⟨rfl, _, outside⟩ := placed.far p l stored
      rw [outside] at cell
      cases cell

/-- Two ladders of one side that store the same levels read the same. -/
theorem Placed.reads_congr (before : Placed s) (after : Placed t) (side : t.side = s.side) (same : t.level? = s.level?) :
    t.best = s.best ∧ t.size = s.size ∧ t.levels = s.levels := by
  have levels : t.levels = s.levels := by
    apply SortedLists.ext (fun a b => better_asymm (s := s) (a := a.price) (b := b.price))
    · rw [← better_congr side]
      exact after.levels_sorted
    · exact before.levels_sorted
    · intro l
      rw [after.mem_levels, before.mem_levels, same]
  refine ⟨?_, ?_, levels⟩
  · rw [after.best_eq, before.best_eq, levels]
  · rw [after.size_eq, before.size_eq, levels]

/-- **Re-centring.** From every clean ladder and for every whole-cent price, `rebase` leads to a clean ladder with the
same levels, those of the new window in the array and all others in the map. The price is inside the
new window, and `best`, `size` and `levels` are unchanged. -/
theorem rebase_sorts_again (clean : s.Clean) {centre : BitVec 32} (whole : centre % kTick = 0#32) :
    (s.rebase centre).Clean ∧
    (∀ l, (s.rebase centre).Has l ↔ s.Has l) ∧
    (∀ l, (s.rebase centre).Has l → ((s.rebase centre).InArray l ↔ (s.rebase centre).InWindow l.price)) ∧
    ((s.rebase centre).span = s.span ∧ (s.rebase centre).baseCents = baseAround s.span (centre / kTick)) ∧
    (s.rebase centre).InWindow centre ∧
    (s.rebase centre).best = s.best ∧ (s.rebase centre).size = s.size ∧ (s.rebase centre).levels = s.levels := by
  obtain ⟨clean', same⟩ := clean.rebase centre
  obtain ⟨set, cell⟩ := clean.marks.rebase_centre whole
  refine ⟨clean', fun l => ?_, fun l has => ?_, clean.marks.rebase_frame centre, (inWindow_iff set centre).mpr cell,
    clean.reads_congr clean'.toPlaced (rebase_side s centre) same⟩
  · rw [clean'.has_iff, clean.has_iff, same]
  · rw [clean'.inArray_iff has, inWindow_iff set]

/-- Around the lower of two prices, with a window clipped at zero: the levels change places and nothing else. -/
theorem rebase_sorts_again_clipped :
    ((Runs.after step (new .buy 0#32 64#32) [.add 20000#32 5#32, .add 1000#32 7#32, .add 20050#32 2#32]).rebase 1000#32).levels =
      (Runs.after step (new .buy 0#32 64#32) [.add 20000#32 5#32, .add 1000#32 7#32, .add 20050#32 2#32]).levels :=
  (rebase_sorts_again (stores_run .buy 0#32 (by decide : 64 ≤ (64#32).toNat) (by decide)
    (by decide +kernel : Runs.Admitted Ladder.step Ladder.Admits ∅ [.add 20000#32 5#32, .add 1000#32 7#32,
      .add 20050#32 2#32])).1.inv.toClean (by decide)).2.2.2.2.2.2.2

end Nts.Book.PriceLevels
