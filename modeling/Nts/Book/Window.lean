import Nts.Book.PriceLevelsOps
import Nts.Book.PriceLevelsReads

/-!
# The window and the market

The cell array is meant to stand where the market is: the best level of a side, if its price is a whole cent, is in
the array. A ladder is `Centred` when it is so. Of all calls only one can leave a centred ladder uncentred: `remove`, when it
takes the last order of a level of the map and uncovers a whole-cent level behind it. Nothing is assumed about
quantities or counts.
-/

namespace Nts.Book.PriceLevels

variable {s t : PriceLevels}

/-- No price is better than `p` among the listed ones, and `p` is one of them. -/
def Tops (s : PriceLevels) (p : BitVec 32) : Prop :=
  (s.listed p).isSome ∧ ∀ q, (s.listed q).isSome → ¬ s.better q p

/-- The best price, if it is a whole cent, is in the window. -/
def Centred (s : PriceLevels) : Prop := ∀ p, s.Tops p → p % kTick = 0#32 → (s.cellOf p).isSome

/-! ## The best price -/

theorem Tops.unique {p q : BitVec 32} (hp : s.Tops p) (hq : s.Tops q) : p = q := by
  by_contra ne
  rcases better_total (s := s) ne with before | after
  · exact hq.2 p hp.1 before
  · exact hp.2 q hq.1 after

/-- The price of the cached cell comes before those of the other cells. -/
theorem Marks.cached_first (marks : Marks s) {p : BitVec 32} {i : Nat} (cell : s.cellOf p = some i) (marked : s.Marked i) :
    ∃ b, s.bestCell = some b ∧ s.Marked b ∧ (b = i ∨ s.better (s.cellAt b).price p) := by
  have first := marks.first
  cases cached : s.bestCell with
  | none =>
    rw [cached] at first
    exact (first i marked).elim
  | some b =>
    rw [cached] at first
    refine ⟨b, rfl, first.1, ?_⟩
    rcases first.2 i marked with eq | ahead
    · exact Or.inl eq.symm
    · exact Or.inr ((better_iff_ahead (marks.price b first.1) cell).mpr ahead)

/-- The cached cell is listed under its price. -/
theorem Marks.cached_listed (marks : Marks s) {b : Nat} (cached : s.bestCell = some b) :
    s.Marked b ∧ s.cellOf (s.cellAt b).price = some b ∧ s.listed (s.cellAt b).price = some (s.cellAt b) := by
  have first := marks.first
  rw [cached] at first
  have cell := marks.price b first.1
  exact ⟨first.1, cell, listed_cell cell first.1⟩

/-- A best price in the window is the cached cell's. -/
theorem Tops.cached {p : BitVec 32} {i : Nat} (tops : s.Tops p) (marks : Marks s) (cell : s.cellOf p = some i) :
    s.bestCell = some i := by
  obtain ⟨b, cached, _, eq | better⟩ := marks.cached_first cell ((listed_isSome_cell cell).mp tops.1)
  · rw [cached, eq]
  · obtain ⟨_, _, listed⟩ := marks.cached_listed cached
    exact absurd better (tops.2 _ (by rw [listed]; rfl))

/-- A best price outside the window beats the cached cell. -/
theorem Tops.beats {p : BitVec 32} (tops : s.Tops p) (marks : Marks s) (outside : s.cellOf p = none) :
    s.beatsBest p = true := by
  cases cached : s.bestCell with
  | none => exact beatsBest_none cached p
  | some b =>
    rw [beatsBest_some cached]
    obtain ⟨_, cell, listed⟩ := marks.cached_listed cached
    have ne : p ≠ (s.cellAt b).price := by
      intro eq
      rw [eq, cell] at outside
      cases outside
    exact (better_total ne).resolve_right (tops.2 _ (by rw [listed]; rfl))

/-- A best price outside the window is the best of the map. -/
theorem Tops.far {p : BitVec 32} (tops : s.Tops p) (marks : Marks s) (outside : s.cellOf p = none) :
    ∃ l, s.farBest = some (p, l) := by
  have here := tops.1
  rw [listed_far outside, Option.isSome_iff_exists] at here
  obtain ⟨l, stored⟩ := here
  cases found : s.farBest with
  | none =>
    rw [farBest_none found] at stored
    cases stored
  | some e =>
    obtain ⟨fb, l'⟩ := e
    have member := mem_farBest found
    rcases marks.farBest_first found stored with rfl | better
    · exact ⟨l', rfl⟩
    · have listed : s.listed fb = some l' := by rw [listed_far (marks.far _ _ member).2, member]
      exact absurd better (tops.2 fb (by rw [listed]; rfl))

/-- The best of the map is the best price when it beats the cached cell. -/
theorem Marks.tops_farBest (marks : Marks s) {fb : BitVec 32} {l : Level} (found : s.farBest = some (fb, l))
    (beats : s.beatsBest fb = true) : s.Tops fb := by
  have member := mem_farBest found
  refine ⟨by rw [listed_far (marks.far _ _ member).2, member]; rfl, fun q here better => ?_⟩
  cases cell : s.cellOf q with
  | none =>
    rw [listed_far cell, Option.isSome_iff_exists] at here
    obtain ⟨l', stored⟩ := here
    rcases marks.farBest_first found stored with rfl | before
    · exact better_asymm better better
    · exact better_asymm better before
  | some i =>
    obtain ⟨b, cached, _, first⟩ := marks.cached_first cell ((listed_isSome_cell cell).mp here)
    rw [beatsBest_some cached] at beats
    have least : s.better fb q := by
      rcases first with rfl | before
      · rw [cellOf_inj cell (marks.cached_listed cached).2.1]
        exact beats
      · exact better_trans beats before
    exact better_asymm better least

/-- Whether a ladder is centred can be read off the best of the map and the cached cell. -/
theorem Marks.centred_iff (marks : Marks s) :
    s.Centred ↔ ∀ fb l, s.farBest = some (fb, l) → fb % kTick = 0#32 → ¬ s.beatsBest fb = true := by
  constructor
  · intro centred fb l found whole beats
    have inside := centred fb (marks.tops_farBest found beats) whole
    rw [(marks.far _ _ (mem_farBest found)).2] at inside
    cases inside
  · intro far p tops whole
    cases cell : s.cellOf p with
    | some i => rfl
    | none =>
      obtain ⟨l, found⟩ := tops.far marks cell
      exact absurd (tops.beats marks cell) (far p l found whole)

/-! ## The best level -/

/-- No level of the side, in the array or in the map, has a better price. -/
def BestOfSide (s : PriceLevels) (l : Level) : Prop := l ∈ s.levels ∧ ∀ l' ∈ s.levels, ¬ s.better l'.price l.price

instance (s : PriceLevels) (l : Level) : Decidable (s.BestOfSide l) := inferInstanceAs (Decidable (_ ∧ _))

/-- The best level is the level of the cached cell, or a sub-penny level of the map. -/
structure FollowsMarket (s : PriceLevels) : Prop where
  inArray : ∀ l, s.BestOfSide l → l.price % kTick = 0#32 →
    ∃ b, s.bestCell = some b ∧ s.cellOf l.price = some b ∧ s.cellAt b = l
  inMap : ∀ l, s.BestOfSide l → l ∉ s.arrayLevels → l.price % kTick ≠ 0#32 ∧ s.far[l.price]? = some l

theorem Marks.bestOfSide_iff (marks : Marks s) (l : Level) :
    s.BestOfSide l ↔ s.listed l.price = some l ∧ s.Tops l.price := by
  rw [BestOfSide, marks.mem_levels]
  apply and_congr_right
  intro here
  constructor
  · intro first
    refine ⟨by rw [here]; rfl, fun q listed better => ?_⟩
    obtain ⟨l', listed⟩ := Option.isSome_iff_exists.mp listed
    obtain rfl := marks.listed_price listed
    exact first l' ((marks.mem_levels l').mpr listed) better
  · intro tops l' member
    exact tops.2 l'.price (by rw [(marks.mem_levels l').mp member]; rfl)

/-- A ladder follows the market exactly when it is centred. -/
theorem Marks.followsMarket_iff_centred (marks : Marks s) : s.FollowsMarket ↔ s.Centred := by
  constructor
  · intro follows p tops whole
    obtain ⟨l, listed⟩ := Option.isSome_iff_exists.mp tops.1
    obtain rfl := marks.listed_price listed
    obtain ⟨b, _, cell, _⟩ := follows.inArray l ((marks.bestOfSide_iff l).mpr ⟨listed, tops⟩) whole
    rw [cell]
    rfl
  · intro centred
    refine ⟨fun l best whole => ?_, fun l best outside => ?_⟩
    · obtain ⟨listed, tops⟩ := (marks.bestOfSide_iff l).mp best
      obtain ⟨i, cell⟩ := Option.isSome_iff_exists.mp (centred l.price tops whole)
      have marked := (listed_isSome_cell cell).mp tops.1
      rw [listed_cell cell marked] at listed
      exact ⟨i, tops.cached marks cell, cell, Option.some.inj listed⟩
    · obtain ⟨listed, tops⟩ := (marks.bestOfSide_iff l).mp best
      cases cell : s.cellOf l.price with
      | some i =>
        have marked := (listed_isSome_cell cell).mp tops.1
        rw [listed_cell cell marked] at listed
        exact absurd ((marks.mem_arrayLevels l).mpr ⟨i, marked, Option.some.inj listed⟩) outside
      | none =>
        refine ⟨fun whole => ?_, (listed_far cell).symm.trans listed⟩
        have inside := centred l.price tops whole
        rw [cell] at inside
        cases inside

/-! ## What the calls keep -/

/-- The window stays, no price goes, and new prices are in the window. -/
theorem Centred.grow (centred : s.Centred) (cells : t.cellOf = s.cellOf) (side : t.side = s.side)
    (kept : ∀ q, (s.listed q).isSome → (t.listed q).isSome)
    (new : ∀ q, (t.listed q).isSome → (s.listed q).isSome ∨ (s.cellOf q).isSome) : t.Centred := by
  intro p tops whole
  rw [cells]
  rcases new p tops.1 with old | inside
  · refine centred p ⟨old, fun q here => ?_⟩ whole
    rw [← better_congr side]
    exact tops.2 q (kept q here)
  · exact inside

/-- Re-centring on the price that is the best if any whole-cent price is. -/
theorem Marks.centred_rebase (marks : Marks s) {centre : BitVec 32} (whole : centre % kTick = 0#32)
    (only : ∀ p, s.Tops p → p % kTick = 0#32 → p = centre) : (s.rebase centre).Centred := by
  intro p tops whole'
  rw [Tops, (marks.rebase centre).2, better_congr (rebase_side s centre)] at tops
  rw [only p tops whole', Option.isSome_iff_exists]
  exact (marks.rebase_centre whole).2

/-- Before the first whole-cent price none is listed. -/
theorem Centred.setBase (centred : s.Centred) (windowed : Windowed s) (price : BitVec 32) : (s.setBase price).Centred := by
  intro p tops whole
  by_cases first : s.baseCents = kNoBase ∧ price % kTick = 0#32
  · have here := tops.1
    rw [(windowed.setBase price).2.1, listed_far (cellOf_unset first.1 p), Option.isSome_iff_exists] at here
    obtain ⟨l, stored⟩ := here
    exact absurd whole (windowed.unset first.1 p l stored)
  · have shape : s.setBase price = s := by rw [PriceLevels.setBase, if_neg first]
    rw [shape] at tops ⊢
    exact centred p tops whole

theorem Windowed.reserve (windowed : Windowed s) : Windowed s.reserve ∧ (s.Centred → s.reserve.Centred) := by
  obtain ⟨marks, _, listed⟩ := windowed.toMarks.ensureCells
  refine ⟨⟨marks, fun unset p l stored => ?_⟩, fun centred => ?_⟩
  · rw [PriceLevels.reserve, ensureCells_baseCents] at unset
    rw [PriceLevels.reserve, ensureCells_far] at stored
    exact windowed.unset unset p l stored
  · refine centred.grow (ensureCells_cellOf s) (ensureCells_side s) (fun q here => ?_) fun q here => Or.inl ?_
    · rw [PriceLevels.reserve, listed]
      exact here
    · rw [PriceLevels.reserve, listed] at here
      exact here

/-- The part of `add` that opens a cell without orders: at other prices the listing stays. -/
theorem Marks.opened (marks : Marks s) (allocated : s.Allocated) {price : BitVec 32} {i : Nat}
    (cell : s.cellOf price = some i) {u : PriceLevels}
    (opened : u = if (s.cellAt i).orders = 0#32 then s.openCell i price else s) :
    Marks u ∧ u.cellOf = s.cellOf ∧ u.side = s.side ∧ (∀ q, q ≠ price → u.listed q = s.listed q) ∧
      ∀ l, s.listed price = some l → u.listed price = some l := by
  split at opened
  · have shape : u = s.occupy i { s.cellAt i with price } := opened
    rw [shape]
    obtain ⟨marks', listed⟩ := marks.occupy allocated (l := { s.cellAt i with price }) cell
    refine ⟨marks', occupy_cellOf s i _, occupy_side s i _, fun q ne => ?_, fun l here => ?_⟩
    · rw [listed, Function.update_of_ne ne]
    · have marked : s.Marked i := by
        rw [← listed_isSome_cell cell, here]
        rfl
      rw [listed_cell cell marked] at here
      rw [listed, Function.update_self, ← here, cellOf_inj cell (marks.price i marked)]
  · rw [opened]
    exact ⟨marks, rfl, rfl, fun _ _ => rfl, fun _ here => here⟩

/-- A write to a cell of a listed or unlisted price keeps every other price listed as it is. -/
theorem Marks.rewritten (marks : Marks s) {p : BitVec 32} {i : Nat} (cell : s.cellOf p = some i) {l : Level}
    (price : l.price = (s.cellAt i).price) : Marks (s.setCell i l) ∧ (∀ q, q ≠ p → (s.setCell i l).listed q = s.listed q) ∧
      (s.setCell i l).listed p = (s.listed p).map fun _ => l := by
  refine ⟨marks.setCell fun _ => price, fun q ne => ?_, ?_⟩
  · rw [marks.listed_setCell cell]
    split
    · rw [Function.update_of_ne ne]
    · rfl
  · rw [marks.listed_setCell cell]
    split
    · next marked => rw [Function.update_self, listed_cell cell marked, Option.map_some]
    · next free => rw [listed_free cell free, Option.map_none]

/-- The part of `add` that credits a cell, opened if it is free. -/
theorem Windowed.credited (windowed : Windowed s) (price shares : BitVec 32) {i : Nat} (cell : s.cellOf price = some i) {u : PriceLevels}
    (opened : u = if (s.ensureCells.cellAt i).orders = 0#32 then s.ensureCells.openCell i price else s.ensureCells) {t : PriceLevels}
    (shape : t = u.setCell i { u.cellAt i with
      shares := (u.cellAt i).shares + shares.setWidth 64, orders := (u.cellAt i).orders + 1#32 }) :
    Windowed t ∧ (s.Centred → t.Centred) ∧ ∀ l, s.listed price = some l → t.listed price = some (credit (some l) price shares) := by
  obtain ⟨marks, allocated, same⟩ := windowed.ensureCells
  have cell' : s.ensureCells.cellOf price = some i := by rw [ensureCells_cellOf, cell]
  obtain ⟨marks', cells, side, others, here⟩ := marks.opened allocated cell' opened
  have cellU : u.cellOf price = some i := by rw [cells, cell']
  obtain ⟨marks'', others', here'⟩ := marks'.rewritten cellU
    (l := { u.cellAt i with shares := (u.cellAt i).shares + shares.setWidth 64, orders := (u.cellAt i).orders + 1#32 }) rfl
  rw [shape]
  refine ⟨⟨marks'', fun unset => ((cellOf_eq_some.mp cellU).1 unset).elim⟩, fun centred => ?_, fun l before => ?_⟩
  · refine centred.grow ?_ ?_ (fun q here'' => ?_) fun q here'' => ?_
    · exact cells.trans (ensureCells_cellOf s)
    · exact side.trans (ensureCells_side s)
    · by_cases eq : q = price
      · subst eq
        obtain ⟨l, before⟩ := Option.isSome_iff_exists.mp here''
        rw [← same] at before
        rw [here', here l before]
        rfl
      · rw [others' q eq, others q eq, same]
        exact here''
    · by_cases eq : q = price
      · rw [eq, cell]
        exact Or.inr rfl
      · rw [others' q eq, others q eq, same] at here''
        exact Or.inl here''
  · rw [← same] at before
    have now := here l before
    have marked : u.Marked i := by
      rw [← listed_isSome_cell cellU, now]
      rfl
    have read := now
    rw [listed_cell cellU marked] at read
    rw [here', now, Option.map_some, Option.some.inj read, credit, Option.getD_some]
    dsimp only
    rw [marks'.listed_price now]

/-- Behind a price put into the map, another best price was the best before. -/
theorem Centred.older (centred : s.Centred) {price : BitVec 32} {l' : Level} {t : PriceLevels}
    (listed : t.listed = Function.update s.listed price (some l')) (side : t.side = s.side) {p : BitVec 32} (ne : p ≠ price)
    (tops : t.Tops p) (whole : p % kTick = 0#32) : (s.cellOf p).isSome := by
  have kept : ∀ q, (s.listed q).isSome → (t.listed q).isSome := by
    intro q before
    rw [listed, Function.update_apply]
    split
    · rfl
    · exact before
  refine centred p ⟨?_, fun q before => ?_⟩ whole
  · rw [← Function.update_of_ne ne (some l') s.listed, ← listed]
    exact tops.1
  · rw [← better_congr side]
    exact tops.2 q (kept q before)

/-- The part of `add` that re-centres on a new best price: no cell holds a better one. -/
theorem Centred.recentred (centred : s.Centred) {price : BitVec 32} {l' : Level} {t : PriceLevels} (marks : Marks t)
    (cells : t.cellOf = s.cellOf) (side : t.side = s.side) (listed : t.listed = Function.update s.listed price (some l'))
    (whole : price % kTick = 0#32) (beats : t.beatsBest price = true) : (t.rebase price).Centred := by
  refine marks.centred_rebase whole fun p tops whole => ?_
  by_contra ne
  obtain ⟨i, cell'⟩ := Option.isSome_iff_exists.mp (centred.older listed side ne tops whole)
  rw [← cells] at cell'
  rw [beatsBest_some (tops.cached marks cell')] at beats
  obtain ⟨_, cell'', _⟩ := marks.cached_listed (tops.cached marks cell')
  rw [cellOf_inj cell'' cell'] at beats
  exact tops.2 price (by rw [listed, Function.update_self]; rfl) beats

/-- The part of `add` that credits a level of the map. -/
theorem Windowed.addFar (windowed : Windowed s) {price : BitVec 32} (set : price % kTick = 0#32 → s.baseCents ≠ kNoBase)
    (cell : s.cellOf price = none) {l' : Level} (key : l'.price = price) {t : PriceLevels}
    (shape : t = { s with far := s.far.insert price l' }) :
    Windowed t ∧ t.listed = Function.update s.listed price (some l') := by
  subst shape key
  refine ⟨⟨windowed.farInsert cell, fun unset p l stored => ?_⟩, listed_farInsert cell l'⟩
  change (s.far.insert l'.price l')[p]? = some l at stored
  rw [Std.TreeMap.getElem?_insert_ite] at stored
  split at stored
  · next eq =>
    rw [eq]
    exact fun whole => set whole unset
  · exact windowed.unset unset p l stored

/-- **`add`** keeps a centred ladder centred, and counts one more order at a listed price. -/
theorem Windowed.add (windowed : Windowed s) (price shares : BitVec 32) : Windowed (s.add price shares) ∧
    (s.Centred → (s.add price shares).Centred) ∧
      ∀ l, s.listed price = some l → (s.add price shares).listed price = some (credit (some l) price shares) := by
  obtain ⟨windowed', listed, set⟩ := windowed.setBase price
  rw [← listed]
  suffices after : Windowed (s.add price shares) ∧ ((s.setBase price).Centred → (s.add price shares).Centred) ∧
      ∀ l, (s.setBase price).listed price = some l →
        (s.add price shares).listed price = some (credit (some l) price shares) from
    ⟨after.1, fun before => after.2.1 (before.setBase windowed price), after.2.2⟩
  unfold PriceLevels.add
  generalize s.setBase price = s at windowed' set
  cases cell : s.cellOf price with
  | some i =>
    simp only [cell]
    exact windowed'.credited price shares cell rfl rfl
  | none =>
    simp only [cell]
    have entry : s.far.getD price {} = (s.listed price).getD {} := by
      rw [listed_far cell, Std.TreeMap.getD_eq_getD_getElem?]
    rw [entry]
    obtain ⟨l', made⟩ : ∃ l', l' = credit (s.listed price) price shares := ⟨_, rfl⟩
    obtain ⟨t, shape⟩ : ∃ t : PriceLevels, t = { s with far := s.far.insert price l' } := ⟨_, rfl⟩
    obtain ⟨inserted, after⟩ := windowed'.addFar set cell (by rw [made]; rfl) shape
    have cells : t.cellOf = s.cellOf := by rw [shape]; rfl
    have side : t.side = s.side := by rw [shape]
    have here : ∀ l, s.listed price = some l → t.listed price = some (credit (some l) price shares) := by
      intro l before
      rw [after, Function.update_self, made, before]
    have folded : ({ s with far := s.far.insert price ⟨price, ((s.listed price).getD {}).shares + shares.setWidth 64,
        ((s.listed price).getD {}).orders + 1#32⟩ } : PriceLevels) = t := by rw [shape, made]; rfl
    rw [folded]
    split
    · next centre =>
      refine ⟨inserted.toMarks.windowed_rebase centre.1, fun centred => ?_, ?_⟩
      · exact centred.recentred inserted.toMarks cells side after centre.1 centre.2
      · rw [(inserted.toMarks.rebase price).2]
        exact here
    · next stays =>
      refine ⟨inserted, fun centred p tops whole => ?_, here⟩
      rw [cells]
      by_cases eq : p = price
      · -- the new price is the best, and no centre: then a cell beats it
        subst eq
        have outside : t.cellOf p = none := by rw [cells, cell]
        exact absurd ⟨whole, tops.beats inserted.toMarks outside⟩ stays
      · exact centred.older after side eq tops whole

/-- A rewrite keeps a ladder centred. -/
theorem Centred.rewritten (centred : s.Centred) (marks : Marks s) {p : BitVec 32} {i : Nat} (cell : s.cellOf p = some i)
    {l : Level} (price : l.price = (s.cellAt i).price) : (s.setCell i l).Centred := by
  obtain ⟨_, others, here⟩ := marks.rewritten cell price
  have same : ∀ q, ((s.setCell i l).listed q).isSome ↔ (s.listed q).isSome := by
    intro q
    by_cases eq : q = p
    · rw [eq, here, Option.isSome_map]
    · rw [others q eq]
  exact centred.grow rfl rfl (fun q => (same q).mpr) fun q here => Or.inl ((same q).mp here)

/-- Another level under a price of the map. -/
theorem Windowed.farRewrite (windowed : Windowed s) {price : BitVec 32} {l : Level} (stored : s.far[price]? = some l) (l' : Level)
    (same : l'.price = price) : Windowed { s with far := s.far.insert price l' } ∧
      (s.Centred → Centred { s with far := s.far.insert price l' }) := by
  have outside := (windowed.far price l stored).2
  subst same
  refine ⟨⟨windowed.toMarks.farInsert outside, fun unset p l'' here => ?_⟩, fun centred => ?_⟩
  · change (s.far.insert l'.price l')[p]? = some l'' at here
    rw [Std.TreeMap.getElem?_insert_ite] at here
    split at here
    · next eq =>
      rw [eq]
      exact windowed.unset unset _ l stored
    · exact windowed.unset unset p l'' here
  · have listed : ∀ q, (({ s with far := s.far.insert l'.price l' } : PriceLevels).listed q).isSome ↔
        (s.listed q).isSome := by
      intro q
      rw [listed_farInsert outside, Function.update_apply]
      split
      · next eq =>
        rw [eq, listed_far outside, stored]
        exact Iff.rfl
      · exact Iff.rfl
    exact centred.grow rfl rfl (fun q => (listed q).mpr) fun q here => Or.inl ((listed q).mp here)

/-- **`reduce`** keeps a centred ladder centred. -/
theorem Windowed.reduce (windowed : Windowed s) (price shares : BitVec 32) :
    Windowed (s.reduce price shares) ∧ (s.Centred → (s.reduce price shares).Centred) := by
  unfold PriceLevels.reduce
  cases cell : s.cellOf price with
  | some i =>
    exact ⟨⟨windowed.toMarks.setCell fun _ => rfl, windowed.unset⟩, fun centred =>
      centred.rewritten windowed.toMarks cell rfl⟩
  | none =>
    cases stored : s.far[price]? with
    | none => exact ⟨windowed, id⟩
    | some l => exact windowed.farRewrite stored _ (windowed.far price l stored).1

/-- Afterwards the ladder is centred. -/
theorem Windowed.recentre (windowed : Windowed s) : Windowed s.recentre ∧ s.recentre.Centred := by
  have stays : (∀ fb l, s.farBest = some (fb, l) → fb % kTick = 0#32 → ¬ s.beatsBest fb = true) → s.Centred :=
    windowed.toMarks.centred_iff.mpr
  unfold PriceLevels.recentre
  cases found : s.farBest with
  | none =>
    refine ⟨windowed, stays fun fb l here => ?_⟩
    rw [found] at here
    cases here
  | some e =>
    obtain ⟨fb, l⟩ := e
    dsimp only
    split
    · next centre =>
      have tops := windowed.toMarks.tops_farBest found centre.2
      exact ⟨windowed.toMarks.windowed_rebase centre.1,
        windowed.toMarks.centred_rebase centre.1 fun p tops' _ => tops'.unique tops⟩
    · next stands =>
      refine ⟨windowed, stays fun fb' l' here whole beats => ?_⟩
      rw [found] at here
      cases here
      exact stands ⟨whole, beats⟩

/-- A cell that is not the cached one can be given up. -/
theorem Centred.vacate (centred : s.Centred) (marks : Marks s) {price : BitVec 32} {i : Nat}
    (cell : s.cellOf price = some i) (other : s.bestCell ≠ some i) (l : Level) : (s.vacate i l).Centred := by
  obtain ⟨_, listed⟩ := marks.vacate cell l
  have cells := vacate_cellOf s i l
  have side := better_congr (vacate_side s i l)
  have kept : ∀ q, q ≠ price → (s.vacate i l).listed q = s.listed q := by
    intro q ne
    rw [listed, Function.update_of_ne ne]
  intro p tops whole
  rw [cells]
  have ne : p ≠ price := by
    rintro rfl
    have here := tops.1
    rw [listed, Function.update_self] at here
    cases here
  refine centred p ⟨?_, fun q here better => ?_⟩ whole
  · rw [← kept p ne]
    exact tops.1
  · by_cases eq : q = price
    · -- the price given up was behind the cached cell, which is still listed
      subst eq
      obtain ⟨b, cached, marked, first⟩ := marks.cached_first cell ((listed_isSome_cell cell).mp here)
      have apart : b ≠ i := fun eq => other (eq ▸ cached)
      have before := first.resolve_left apart
      obtain ⟨_, cellB, listedB⟩ := marks.cached_listed cached
      have neB : (s.cellAt b).price ≠ q := by
        intro eq
        rw [eq, cell] at cellB
        exact apart (Option.some.inj cellB).symm
      have still := tops.2 (s.cellAt b).price (by rw [kept _ neB, listedB]; rfl)
      rw [side] at still
      exact still (better_trans before better)
    · have still := tops.2 q (by rw [kept q eq]; exact here)
      rw [side] at still
      exact still better

/-- The best price of the map but `price`. -/
def behind (s : PriceLevels) (price : BitVec 32) : Option (BitVec 32) :=
  ({ s with far := s.far.erase price } : PriceLevels).farBest.map Prod.fst

/-- `price` is a level of the map with one order left, and behind it the best of the map is a whole-cent price that
beats the cached cell. -/
def Strands (s : PriceLevels) (price : BitVec 32) : Prop :=
  s.cellOf price = none ∧ (s.far[price]?).map Level.orders = some 1#32 ∧
    ∃ fb ∈ s.behind price, fb % kTick = 0#32 ∧ s.beatsBest fb = true

/-- **`remove`** keeps a centred ladder centred unless it strands it. -/
theorem Windowed.remove (windowed : Windowed s) (price shares : BitVec 32) : Windowed (s.remove price shares) ∧
    (s.Centred → ((s.remove price shares).Centred ↔ ¬ s.Strands price)) := by
  unfold PriceLevels.remove
  cases cell : s.cellOf price with
  | some i =>
    have sound : ¬ s.Strands price := fun strands => by
      rw [strands.1] at cell
      cases cell
    have base : s.baseCents ≠ kNoBase := (cellOf_eq_some.mp cell).1
    dsimp only
    split
    · rw [closeCell_vacate]
      obtain ⟨marks, _⟩ := windowed.toMarks.vacate cell { (s.setCell i { s.cellAt i with
        shares := (s.cellAt i).shares - shares.setWidth 64, orders := (s.cellAt i).orders - 1#32 }).cellAt i with
        shares := 0#64 }
      have vacated : Windowed (s.vacate i { (s.setCell i { s.cellAt i with
          shares := (s.cellAt i).shares - shares.setWidth 64, orders := (s.cellAt i).orders - 1#32 }).cellAt i with
          shares := 0#64 }) :=
        ⟨marks, fun unset => (base ((vacate_baseCents s i _).symm.trans unset)).elim⟩
      split
      · exact ⟨vacated.recentre.1, fun _ => iff_of_true vacated.recentre.2 sound⟩
      · next other =>
        exact ⟨vacated, fun centred => iff_of_true (centred.vacate windowed.toMarks cell other _) sound⟩
    · exact ⟨⟨windowed.toMarks.setCell fun _ => rfl, windowed.unset⟩, fun centred =>
        iff_of_true (centred.rewritten windowed.toMarks cell rfl) sound⟩
  | none =>
    cases stored : s.far[price]? with
    | none =>
      refine ⟨windowed, fun centred => iff_of_true centred fun strands => ?_⟩
      have one := strands.2.1
      rw [stored] at one
      cases one
    | some l =>
      dsimp only
      split
      · next last =>
        have one : l.orders = 1#32 := by bv_omega
        have marks := windowed.toMarks.farErase price
        refine ⟨⟨marks, fun unset p l' here => ?_⟩, fun _ => ?_⟩
        · change (s.far.erase price)[p]? = some l' at here
          rw [Std.TreeMap.getElem?_erase_ite] at here
          split at here
          · cases here
          · exact windowed.unset unset p l' here
        · rw [marks.centred_iff, Strands, stored, Option.map_some, one]
          constructor
          · rintro far ⟨_, _, fb, found, whole, beats⟩
            obtain ⟨e, best, rfl⟩ := Option.map_eq_some_iff.mp found
            exact far e.1 e.2 best whole beats
          · intro sound fb l' found whole beats
            exact sound ⟨cell, rfl, fb, Option.map_eq_some_iff.mpr ⟨_, found, rfl⟩, whole, beats⟩
      · next more =>
        obtain ⟨windowed', centred'⟩ := windowed.farRewrite stored { l with
          shares := l.shares - shares.setWidth 64, orders := l.orders - 1#32 } (windowed.far price l stored).1
        refine ⟨windowed', fun centred => iff_of_true (centred' centred) fun strands => ?_⟩
        have one := strands.2.1
        rw [stored, Option.map_some] at one
        rw [Option.some.inj one] at more
        exact more rfl

end Nts.Book.PriceLevels
