import Nts.Common.OrderIndexInv

/-!
# The operations of `OrderIndex` on the map it stores

`Rep t m`: the table `t` satisfies its invariant and stores exactly the finite
map `m`. One lemma for each outcome of each operation; callers use these and
never unfold a table again.
-/

namespace Nts.OrderIndex
open LinearProbe

/-- The abstract content of a table. -/
abbrev OrderMap := Finmap fun _ : BitVec 64 => Order

/-- The table stores exactly the map. -/
structure Rep (t : OrderIndex) (m : OrderMap) : Prop where
  inv : Inv t
  same : ∀ ref o, (ref, o) ∈ t.entries ↔ m.lookup ref = some o

variable {t : OrderIndex} {m : OrderMap}

theorem rep_new : Rep {} ∅ := ⟨inv_new, by simp [entries]⟩

/-- `size()` is the number of live keys. -/
theorem Rep.size (rep : Rep t m) : t.size = m.keys.card := by
  rw [rep.inv.size, Finmap.card_keys_of_list rep.inv.nodup rep.same]

/-- What `for_each` visits is exactly the map's content. -/
theorem Rep.entries (rep : Rep t m) :
    m.entries = ((t.entries.map fun e => (⟨e.1, e.2⟩ : Σ _ : BitVec 64, Order) : List _) : Multiset _) :=
  Finmap.entries_eq_of_list rep.inv.nodup rep.same

theorem Rep.zero_notMem (rep : Rep t m) : 0#64 ∉ m := by
  rw [Finmap.mem_iff]
  rintro ⟨o, stored⟩
  exact zero_notMem_entries t o ((rep.same _ _).mpr stored)

theorem Rep.holds (rep : Rep t m) (ref : BitVec 64) (o : Order) :
    Holds t.capacity (ringOf t.slots) ref o ↔ m.lookup ref = some o := by
  rw [← mem_entries]
  exact rep.same ref o

/-- A table without entries stores the empty map. -/
theorem Rep.eq_empty (rep : Rep t m) (empty : t.size = 0) : m = ∅ := by
  have card := rep.size
  rw [empty] at card
  apply Finmap.ext_lookup
  intro ref
  rw [Finmap.lookup_empty, Finmap.lookup_eq_none, ← Finmap.mem_keys, Finset.card_eq_zero.mp card.symm]
  exact Finset.notMem_empty ref

/-! ## Lookup -/

/-- `find` on a live key: the slot that holds it. -/
theorem Rep.find_live (rep : Rep t m) {ref : BitVec 64} {o : Order} (live : m.lookup ref = some o) :
    ∃ i, t.find ref = some i ∧ t.probe ref = some i ∧ t.orderAt i = o ∧ (t.slotAt i).ref = ref ∧
      ringOf t.slots i = some (ref, o) ∧ Stops t.capacity t.homeSlot (ringOf t.slots) ref i := by
  have nonzero : ref ≠ 0#64 := by
    rintro rfl
    exact rep.zero_notMem (Finmap.mem_of_lookup_eq_some live)
  have occupied : t.size ≠ 0 := by
    intro zero
    rw [rep.eq_empty zero, Finmap.lookup_empty] at live
    cases live
  obtain ⟨k, _, table, _, room⟩ := rep.inv.room occupied
  obtain ⟨i, found, _, stops⟩ := probe_spec table.sized room ref
  have stops := stops nonzero
  rcases stops.here with empty | ⟨o', here⟩
  · exact (stops.absent table.linked empty o ((rep.holds ref o).mpr live)).elim
  · obtain rfl := (stops.found table.linked here o).mp ((rep.holds ref o).mpr live)
    obtain ⟨_, key, order⟩ := content_eq_some.mp here
    refine ⟨i, ?_, found, order, key, here, stops⟩
    have stored : (t.slotAt i).ref ≠ 0#64 := by rw [slotAt, key]; exact nonzero
    simp only [find, occupied, if_false, found, stored]

/-- `find` on a key that is not live, 0 included. -/
theorem Rep.find_absent (rep : Rep t m) {ref : BitVec 64} (absent : ref ∉ m) : t.find ref = none := by
  unfold find
  split
  · rfl
  · next occupied =>
    obtain ⟨k, _, table, _, room⟩ := rep.inv.room occupied
    obtain ⟨i, found, stop, _⟩ := probe_spec table.sized room ref
    rw [found]
    rcases stop with empty | key
    · simp only [empty, if_true]
    · by_cases zero : (t.slotAt i).ref = 0#64
      · simp only [zero, if_true]
      · have bound : i < t.capacity := by
          by_contra out
          have outside : t.slotAt i = {} := by
            simp only [slotAt, Array.getD_eq_getD_getElem?]
            rw [Array.getElem?_eq_none (by simpa [capacity] using out)]
            rfl
          rw [outside] at zero
          exact zero rfl
        have held : Holds t.capacity (ringOf t.slots) ref (t.slotAt i).order :=
          ⟨i, bound, by rw [ringOf_eq, content_of_ref zero, key]⟩
        exact (absent (Finmap.mem_of_lookup_eq_some ((rep.holds _ _).mp held))).elim

/-- What a returned pointer reads, for every key. -/
theorem Rep.find_order (rep : Rep t m) (ref : BitVec 64) : (t.find ref).map t.orderAt = m.lookup ref := by
  cases live : m.lookup ref with
  | none => rw [rep.find_absent (Finmap.lookup_eq_none.mp live), Option.map_none]
  | some o =>
    obtain ⟨i, found, _, order, _⟩ := rep.find_live live
    rw [found, Option.map_some, order]

/-- A pointer is returned for live keys only, and points to the order. -/
theorem Rep.lookup_of_find (rep : Rep t m) {ref : BitVec 64} {i : Nat} (found : t.find ref = some i) :
    m.lookup ref = some (t.orderAt i) := by
  rw [← rep.find_order, found, Option.map_some]

/-- Writing through the pointer changes the order stored under its key. -/
theorem Rep.setShares (rep : Rep t m) {ref : BitVec 64} {o : Order} (live : m.lookup ref = some o) {i : Nat}
    (found : t.find ref = some i) (shares : BitVec 32) :
    Rep (t.setShares i shares) (m.insert ref { o with shares }) := by
  obtain ⟨j, found', _, order, key, here, stops⟩ := rep.find_live live
  obtain rfl : i = j := Option.some.inj (found.symm.trans found')
  obtain ⟨nonzero, -, -⟩ := content_eq_some.mp here
  have capacity : (t.setShares i shares).capacity = t.capacity := Array.size_setIfInBounds
  have written : ringOf (t.setShares i shares).slots =
      Function.update (ringOf t.slots) i (some (ref, { o with shares })) := by
    have entry : ({ t.slotAt i with order := { t.orderAt i with shares } } : Slot).content =
        some (ref, { o with shares }) := content_eq_some.mpr ⟨nonzero, key, by rw [order]⟩
    rw [OrderIndex.setShares, ringOf_set stops.bound, entry]
  obtain ⟨k, least, table, ⟨growAt, load⟩, _⟩ := rep.inv.room (by
    rw [rep.size]
    exact Finset.card_ne_zero_of_mem (Finmap.mem_keys.mpr (Finmap.mem_of_lookup_eq_some live)))
  have linked : Linked (t.setShares i shares).capacity (t.setShares i shares).homeSlot
      (ringOf (t.setShares i shares).slots) := by
    rw [capacity, written]
    exact table.linked.setValue here _
  have same : ∀ ref' o', (ref', o') ∈ (t.setShares i shares).entries ↔
      (m.insert ref { o with shares }).lookup ref' = some o' := by
    intro ref' o'
    rw [mem_entries, capacity, written, table.linked.holds_setValue stops.bound here, rep.holds]
    by_cases eq : ref' = ref
    · subst eq
      simp only [true_and, ne_eq, not_true_eq_false, false_and, or_false, Finmap.lookup_insert, Option.some.injEq,
        eq_comm]
    · rw [Finmap.lookup_insert_of_ne _ eq]
      simp only [eq, false_and, ne_eq, not_false_eq_true, true_and, false_or]
  have size : t.size = (t.setShares i shares).entries.length := by
    rw [rep.size, ← Finmap.card_keys_of_list (entries_nodup linked) same]
    congr 1
    ext x
    simp only [Finmap.mem_keys, Finmap.mem_insert]
    constructor
    · exact Or.inr
    · rintro (rfl | old)
      · exact Finmap.mem_of_lookup_eq_some live
      · exact old
  exact ⟨.table k least ⟨⟨capacity.trans table.sized.capacity, table.sized.mask⟩, linked, size⟩ growAt load, same⟩

/-! ## Insertion -/

/-- After the growth test the table stores the same map and has room for one more entry. -/
theorem Rep.ensureRoom (rep : Rep t m) : Rep t.ensureRoom m ∧ ∃ k, 8 ≤ k ∧ Table k t.ensureRoom ∧
    t.ensureRoom.growAt = 2 ^ k - 2 ^ k / 4 ∧ t.ensureRoom.size + 1 ≤ t.ensureRoom.growAt ∧
    ∃ e < t.ensureRoom.capacity, ringOf t.ensureRoom.slots e = none := by
  have build : ∀ {t' : OrderIndex} {k : Nat}, 8 ≤ k → Table k t' → t'.growAt = 2 ^ k - 2 ^ k / 4 →
      t'.size + 1 ≤ t'.growAt → (∀ ref o, (ref, o) ∈ t'.entries ↔ m.lookup ref = some o) →
      Rep t' m ∧ ∃ k, 8 ≤ k ∧ Table k t' ∧ t'.growAt = 2 ^ k - 2 ^ k / 4 ∧ t'.size + 1 ≤ t'.growAt ∧
        ∃ e < t'.capacity, ringOf t'.slots e = none := by
    intro t' k least table growAt room same
    have big := two_pow_ge least
    exact ⟨⟨.table k least table growAt (by omega), same⟩, k, least, table, growAt, room,
      table.room (by rw [table.sized.capacity]; omega)⟩
  unfold OrderIndex.ensureRoom
  split
  · obtain ⟨k, least, table, growAt, room, same⟩ := rep.inv.grow
    exact build least table growAt room fun ref o => (same ref o).trans (rep.same ref o)
  · next fits =>
    cases rep.inv with
    | empty _ size growAt => omega
    | table k least table growAt load => exact build least table growAt (by omega) rep.same

/-- `insert` of a live key is refused behind the growth test. -/
theorem Rep.insert_live (rep : Rep t m) {ref : BitVec 64} (live : ref ∈ m) (qty price : BitVec 32) (buy : Bool) :
    t.insert ref qty price buy = (t.ensureRoom, false) := by
  have nonzero : ref ≠ 0#64 := by
    rintro rfl
    exact rep.zero_notMem live
  obtain ⟨o, live⟩ := Finmap.mem_iff.mp live
  obtain ⟨i, _, found, _, key, _⟩ := rep.ensureRoom.1.find_live live
  simp only [OrderIndex.insert, nonzero, found, key, if_false]

/-- `insert` refuses 0 and every live key; the map is unchanged (the table may have grown). -/
theorem Rep.insert_refused (rep : Rep t m) {ref : BitVec 64} (refused : ref = 0#64 ∨ ref ∈ m) (qty price : BitVec 32)
    (buy : Bool) : (t.insert ref qty price buy).2 = false ∧ Rep (t.insert ref qty price buy).1 m := by
  rcases refused with zero | live
  · rw [OrderIndex.insert, if_pos zero]
    exact ⟨rfl, rep⟩
  · rw [rep.insert_live live]
    exact ⟨rfl, rep.ensureRoom.1⟩

/-- `insert` accepts every other key and stores its order. -/
theorem Rep.insert_accepted (rep : Rep t m) {ref : BitVec 64} (nonzero : ref ≠ 0#64) (absent : ref ∉ m)
    (qty price : BitVec 32) (buy : Bool) :
    (t.insert ref qty price buy).2 = true ∧
      Rep (t.insert ref qty price buy).1 (m.insert ref ⟨packShares qty buy, price⟩) := by
  unfold OrderIndex.insert
  rw [if_neg nonzero]
  obtain ⟨rep', k, least, table, growAt, load, room⟩ := rep.ensureRoom
  obtain ⟨i, found, _, stops⟩ := probe_spec table.sized room ref
  have stops := stops nonzero
  have empty : ringOf t.ensureRoom.slots i = none := by
    rcases stops.here with empty | ⟨o, here⟩
    · exact empty
    · have stored := (rep'.holds ref o).mp ⟨i, stops.bound, here⟩
      exact (absent (Finmap.mem_of_lookup_eq_some stored)).elim
  have unused : (t.ensureRoom.slotAt i).ref = 0#64 := content_eq_none.mp empty
  have entry : (⟨ref, packShares qty buy, price⟩ : Slot).content = some (ref, ⟨packShares qty buy, price⟩) :=
    content_eq_some.mpr ⟨nonzero, rfl, rfl⟩
  obtain ⟨stored, all⟩ := table.store stops empty entry
  simp only [found, unused, if_true, true_and]
  refine ⟨.table k least stored growAt load, ?_⟩
  intro ref' o'
  rw [all, rep'.same]
  by_cases eq : ref' = ref
  · subst eq
    rw [Finmap.lookup_insert, Finmap.lookup_eq_none.mpr absent]
    simp [eq_comm]
  · rw [Finmap.lookup_insert_of_ne _ eq]
    simp [eq]

/-! ## Deletion -/

/-- `erase` refuses a key that is not live and changes nothing. -/
theorem Rep.erase_absent (rep : Rep t m) {ref : BitVec 64} (absent : ref ∉ m) : t.erase ref = (t, false) := by
  have miss := rep.find_absent absent
  unfold find at miss
  unfold OrderIndex.erase
  split
  · rfl
  · next occupied =>
    rw [if_neg occupied] at miss
    cases found : t.probe ref with
    | none => rfl
    | some i =>
      by_cases empty : (t.slotAt i).ref = 0#64
      · simp only [empty, if_true]
      · simp [found, empty] at miss

/-- `erase` deletes a live key. -/
theorem Rep.erase_live (rep : Rep t m) {ref : BitVec 64} {o : Order} (live : m.lookup ref = some o) :
    (t.erase ref).2 = true ∧ Rep (t.erase ref).1 (m.erase ref) := by
  obtain ⟨i, _, found, _, key, here, stops⟩ := rep.find_live live
  have nonzero : ref ≠ 0#64 := (content_eq_some.mp here).1
  have occupied : t.size ≠ 0 := by
    rw [rep.size]
    exact Finset.card_ne_zero_of_mem (Finmap.mem_keys.mpr (Finmap.mem_of_lookup_eq_some live))
  obtain ⟨k, least, table, ⟨growAt, load⟩, room⟩ := rep.inv.room occupied
  obtain ⟨slots, done, capacity, linked, held⟩ := backwardShift_spec table.sized table.linked room stops.bound here
  have erased : t.erase ref = ({ t with slots, size := t.size - 1 }, true) := by
    simp only [OrderIndex.erase, occupied, if_false, found, key, nonzero, backwardShift, done]
  rw [erased]
  refine ⟨rfl, ?_⟩
  have same : ∀ ref' o', (ref', o') ∈ ({ t with slots, size := t.size - 1 } : OrderIndex).entries ↔
      (m.erase ref).lookup ref' = some o' := by
    intro ref' o'
    rw [mem_entries, Finmap.lookup_erase_ite]
    simp only [OrderIndex.capacity] at capacity held ⊢
    rw [capacity, held, ← OrderIndex.capacity, rep.holds]
    split <;> simp_all
  have linked' : Linked ({ t with slots, size := t.size - 1 } : OrderIndex).capacity
      ({ t with slots, size := t.size - 1 } : OrderIndex).homeSlot
      (ringOf ({ t with slots, size := t.size - 1 } : OrderIndex).slots) := by
    simp only [OrderIndex.capacity] at capacity linked ⊢
    rw [capacity]
    exact linked
  have size : t.size - 1 = ({ t with slots, size := t.size - 1 } : OrderIndex).entries.length := by
    have count := Finmap.card_keys_of_list (entries_nodup linked') same
    rw [Finmap.keys_erase, Finset.card_erase_of_mem (Finmap.mem_keys.mpr (Finmap.mem_of_lookup_eq_some live)),
      ← rep.size] at count
    exact count
  exact ⟨.table k least ⟨⟨capacity.trans table.sized.capacity, table.sized.mask⟩, linked', size⟩ growAt
    ((Nat.sub_le _ _).trans load), same⟩

/-! ## Whole histories -/

/-- A call on the index. `update` writes the shares word of the order `find` returns. -/
inductive Call where
  | insert (ref : BitVec 64) (qty price : BitVec 32) (buy : Bool)
  | find (ref : BitVec 64)
  | erase (ref : BitVec 64)
  | update (ref : BitVec 64) (shares : BitVec 32)

/-- What a call returns: a flag, or what the returned pointer reads (`none` for null). -/
inductive Answer where
  | flag (b : Bool)
  | order (o : Option Order)
  deriving DecidableEq

/-- One call on the table. -/
def step (t : OrderIndex) : Call → OrderIndex × Answer
  | .insert ref qty price buy => ((t.insert ref qty price buy).1, .flag (t.insert ref qty price buy).2)
  | .find ref => (t, .order ((t.find ref).map t.orderAt))
  | .erase ref => ((t.erase ref).1, .flag (t.erase ref).2)
  | .update ref shares =>
    match t.find ref with
    | some i => (t.setShares i shares, .order (some (t.orderAt i)))
    | none => (t, .order none)

/-- The same call on a finite map whose keys are nonzero. -/
def OrderMap.step (m : OrderMap) : Call → OrderMap × Answer
  | .insert ref qty price buy =>
    if ref ≠ 0#64 ∧ ref ∉ m then (m.insert ref ⟨packShares qty buy, price⟩, .flag true) else (m, .flag false)
  | .find ref => (m, .order (m.lookup ref))
  | .erase ref => (m.erase ref, .flag (decide (ref ∈ m)))
  | .update ref shares =>
    match m.lookup ref with
    | some o => (m.insert ref { o with shares }, .order (some o))
    | none => (m, .order none)

/-- Every call is answered as the map answers it. -/
theorem Rep.step (rep : Rep t m) (c : Call) :
    Rep (t.step c).1 (OrderMap.step m c).1 ∧ (t.step c).2 = (OrderMap.step m c).2 := by
  cases c with
  | insert ref qty price buy =>
    simp only [OrderIndex.step, OrderMap.step]
    split
    · next new =>
      obtain ⟨flag, rep'⟩ := rep.insert_accepted new.1 new.2 qty price buy
      exact ⟨rep', by rw [flag]⟩
    · next old =>
      have refused : ref = 0#64 ∨ ref ∈ m := by tauto
      obtain ⟨flag, rep'⟩ := rep.insert_refused refused qty price buy
      exact ⟨rep', by rw [flag]⟩
  | find ref => exact ⟨rep, congrArg _ (rep.find_order ref)⟩
  | erase ref =>
    simp only [OrderIndex.step, OrderMap.step]
    cases live : m.lookup ref with
    | none =>
      have absent := Finmap.lookup_eq_none.mp live
      rw [rep.erase_absent absent, Finmap.erase_of_notMem absent]
      exact ⟨rep, by simp [absent]⟩
    | some o =>
      obtain ⟨flag, rep'⟩ := rep.erase_live live
      exact ⟨rep', by simp [flag, Finmap.mem_of_lookup_eq_some live]⟩
  | update ref shares =>
    simp only [OrderIndex.step, OrderMap.step]
    cases live : m.lookup ref with
    | none =>
      rw [rep.find_absent (Finmap.lookup_eq_none.mp live)]
      exact ⟨rep, rfl⟩
    | some o =>
      obtain ⟨i, found, _, order, _⟩ := rep.find_live live
      rw [found]
      exact ⟨rep.setShares live found shares, congrArg (fun o => Answer.order (some o)) order⟩

/-- The table after a history of calls stores what the map stores, and has answered as it did. -/
theorem rep_run (cs : List Call) :
    Rep (Runs.after step {} cs) (Runs.after OrderMap.step ∅ cs) ∧
      Runs.answers step {} cs = Runs.answers OrderMap.step ∅ cs :=
  Runs.simulation (fun _ _ c rep _ => rep.step c) rep_new (Runs.admitted_of_forall fun _ _ => trivial)

/-- The probe loops of the next call end within one round of the table. -/
structure ProbesEnd (t : OrderIndex) : Prop where
  lookup : t.size ≠ 0 → ∀ ref, (t.probe ref).isSome
  insert : ∀ ref, (t.ensureRoom.probe ref).isSome

theorem Rep.probesEnd (rep : Rep t m) : ProbesEnd t where
  lookup := by
    intro occupied ref
    obtain ⟨k, _, table, _, room⟩ := rep.inv.room occupied
    obtain ⟨i, found, _⟩ := probe_spec table.sized room ref
    rw [found]
    rfl
  insert := by
    intro ref
    obtain ⟨_, k, _, table, _, _, room⟩ := rep.ensureRoom
    obtain ⟨i, found, _⟩ := probe_spec table.sized room ref
    rw [found]
    rfl

/-- **`OrderIndex` refines a finite map.** After every history of calls from the
empty table: all answers were the map's, the probe loops of the next call end,
`find` reads the map, `size()` counts its keys, and `for_each` visits each live
key once with its current order. -/
theorem index_refines_map (cs : List Call) :
    Runs.answers step {} cs = Runs.answers OrderMap.step ∅ cs ∧
    ProbesEnd (Runs.after step {} cs) ∧
    (∀ ref, ((Runs.after step {} cs).find ref).map (Runs.after step {} cs).orderAt =
      (Runs.after OrderMap.step ∅ cs).lookup ref) ∧
    (Runs.after step {} cs).size = (Runs.after OrderMap.step ∅ cs).keys.card ∧
    ((Runs.after step {} cs).entries.map Prod.fst).Nodup ∧
    ∀ ref o, (ref, o) ∈ (Runs.after step {} cs).entries ↔ (Runs.after OrderMap.step ∅ cs).lookup ref = some o := by
  obtain ⟨rep, same⟩ := rep_run cs
  exact ⟨same, rep.probesEnd, rep.find_order, rep.size, rep.inv.nodup, rep.same⟩

end Nts.OrderIndex
