import Nts.Common.OrderIndex
import Nts.Lib.FinmapFacts

/-!
# `OrderIndex` is a finite map

`Inv` is what every reachable table satisfies: a power of two capacity, the load
bound that keeps a slot empty, and no broken probe chain. `Rep t m` says that the
table stores exactly the finite map `m`. Each operation has one lemma here: what
it does to `Rep`. The ring arguments are those of `LinearProbe`.
-/

namespace Nts.OrderIndex
open LinearProbe

/-! ## Slots as a ring -/

/-- What each position of the array holds. -/
def ringOf (slots : Array Slot) : Ring (BitVec 64) Order := fun p => (slots.getD p {}).content

theorem ringOf_set {slots : Array Slot} {i : Nat} (hi : i < slots.size) (s : Slot) :
    ringOf (slots.setIfInBounds i s) = Function.update (ringOf slots) i s.content := by
  funext p
  simp only [ringOf, Array.getD_eq_getD_getElem?, Array.getElem?_setIfInBounds]
  by_cases eq : p = i
  · subst eq
    simp [hi]
  · rw [Function.update_of_ne eq, if_neg (Ne.symm eq)]
    simp [ringOf]

@[simp] theorem content_empty : ({} : Slot).content = none := rfl

theorem content_eq_none {s : Slot} : s.content = none ↔ s.ref = 0#64 := by
  unfold Slot.content
  split <;> simp_all

theorem content_eq_some {s : Slot} {k : BitVec 64} {o : Order} :
    s.content = some (k, o) ↔ k ≠ 0#64 ∧ s.ref = k ∧ s.order = o := by
  unfold Slot.content
  split
  · next empty =>
    simp only [reduceCtorEq, false_iff, not_and]
    intro nonzero eq
    exact absurd (eq ▸ empty) nonzero
  · next occupied =>
    simp only [Option.some.injEq, Prod.mk.injEq]
    constructor
    · rintro ⟨rfl, rfl⟩
      exact ⟨occupied, rfl, rfl⟩
    · exact And.right

theorem content_of_ref {s : Slot} (occupied : s.ref ≠ 0#64) : s.content = some (s.ref, s.order) := by
  simp [Slot.content, occupied]

theorem mem_entries {t : OrderIndex} {k : BitVec 64} {o : Order} :
    (k, o) ∈ t.entries ↔ Holds t.capacity (ringOf t.slots) k o := by
  simp only [entries, List.mem_filterMap, Holds, ringOf, capacity, Array.getD_eq_getD_getElem?]
  constructor
  · rintro ⟨s, member, stored⟩
    obtain ⟨p, hp, rfl⟩ := Array.mem_iff_getElem.mp (Array.mem_toList_iff.mp member)
    exact ⟨p, hp, by simp [hp, stored]⟩
  · rintro ⟨p, hp, stored⟩
    refine ⟨t.slots[p], by simp, ?_⟩
    simpa [hp] using stored

/-- Keys that sit at one position each are listed once each. -/
theorem entries_nodup {t : OrderIndex} {home : BitVec 64 → Nat} (linked : Linked t.capacity home (ringOf t.slots)) :
    (t.entries.map Prod.fst).Nodup := by
  unfold entries
  rw [List.map_filterMap, List.Nodup, List.pairwise_filterMap, List.pairwise_iff_getElem]
  intro i j hi hj less k left k' right eq
  subst eq
  have read : ∀ p (hp : p < t.slots.toList.length),
      (t.slots.toList[p].content.map Prod.fst) = some k → ∃ o, ringOf t.slots p = some (k, o) := by
    intro p hp stored
    obtain ⟨⟨k', o⟩, entry, rfl⟩ := Option.map_eq_some_iff.mp stored
    have bound : p < t.slots.size := by simpa using hp
    exact ⟨o, by simpa [ringOf, Array.getD_eq_getD_getElem?, bound] using entry⟩
  obtain ⟨o, here⟩ := read i hi left
  obtain ⟨o', there⟩ := read j hj right
  simp only [Array.length_toList] at hi hj
  have := linked.distinct i hi j hj k o o' here there
  omega

/-- A table with fewer entries than slots has an empty slot. -/
theorem exists_empty {t : OrderIndex} (room : t.entries.length < t.capacity) :
    ∃ e < t.capacity, ringOf t.slots e = none := by
  obtain ⟨s, member, empty⟩ := List.length_filterMap_lt_length_iff_exists.mp
    (show (t.slots.toList.filterMap Slot.content).length < t.slots.toList.length by
      simpa [entries, capacity] using room)
  obtain ⟨p, hp, rfl⟩ := Array.mem_iff_getElem.mp (Array.mem_toList_iff.mp member)
  exact ⟨p, hp, by simpa [ringOf, Array.getD_eq_getD_getElem?, hp] using empty⟩

/-! ## Machine arithmetic of the ring -/

theorem and_mask {k : Nat} (x : Nat) : x &&& (2 ^ k - 1) = x % 2 ^ k := Nat.and_two_pow_sub_one_eq_mod x k

/-- `ringSub` is the masked 64-bit subtraction of the source for every table that fits in a 64-bit address space. -/
theorem ringSub_eq_machine {k a b : Nat} (hk : k ≤ 64) (ha : a < 2 ^ k) (hb : b < 2 ^ k) :
    ringSub (2 ^ k - 1) a b = (BitVec.ofNat 64 a - BitVec.ofNat 64 b).toNat &&& (2 ^ k - 1) := by
  have whole : 2 ^ 64 = 2 ^ k * 2 ^ (64 - k) := by rw [← pow_add]; congr 1; omega
  have fits : 2 ^ k ≤ 2 ^ 64 := Nat.pow_le_pow_right (by omega) hk
  have pos : 1 ≤ 2 ^ k := Nat.one_le_two_pow
  rw [BitVec.toNat_sub, BitVec.toNat_ofNat, BitVec.toNat_ofNat, Nat.mod_eq_of_lt (a := a) (by omega),
    Nat.mod_eq_of_lt (a := b) (by omega), ringSub, and_mask, and_mask, Nat.mod_mod_of_dvd _ (whole ▸ Dvd.intro _ rfl)]
  obtain ⟨c, hc⟩ : ∃ c, 2 ^ 64 = 2 ^ k * (c + 1) := by
    refine ⟨2 ^ (64 - k) - 1, ?_⟩
    rw [whole, Nat.sub_add_cancel Nat.one_le_two_pow]
  rw [show 2 ^ 64 - b + a = (a + (2 ^ k - 1 + 1) - b) + 2 ^ k * c by rw [hc, Nat.mul_add]; omega,
    Nat.add_mul_mod_self_left]

theorem ringSub_eq_dist {k a b : Nat} (ha : a < 2 ^ k) (hb : b < 2 ^ k) :
    ringSub (2 ^ k - 1) a b = dist (2 ^ k) b a := by
  have pos : 1 ≤ 2 ^ k := Nat.one_le_two_pow
  rw [ringSub, and_mask, dist_eq_mod hb ha, Nat.sub_add_cancel pos]

theorem next_eq_succ {t : OrderIndex} {k : Nat} (mask : t.mask = 2 ^ k - 1) {i : Nat} (hi : i < 2 ^ k) :
    t.next i = succ (2 ^ k) i := by
  rw [next, mask, and_mask, succ_eq_mod hi]

theorem homeOf_lt (k : Nat) (ref : BitVec 64) : homeOf (2 ^ k - 1) ref < 2 ^ k := by
  simp only [homeOf, and_mask]
  exact Nat.mod_lt _ (by positivity)

/-! ## Probing -/

/-- A table of `2 ^ k` slots. -/
structure Sized (k : Nat) (t : OrderIndex) : Prop where
  capacity : t.capacity = 2 ^ k
  mask : t.mask = 2 ^ k - 1

theorem Sized.home_lt {k : Nat} {t : OrderIndex} (sized : Sized k t) (ref : BitVec 64) : t.homeSlot ref < t.capacity := by
  rw [homeSlot, sized.mask, sized.capacity]
  exact homeOf_lt k ref

theorem Sized.next {k : Nat} {t : OrderIndex} (sized : Sized k t) :
    ∀ i < t.capacity, t.next i = succ t.capacity i := by
  intro i hi
  rw [sized.capacity] at hi ⊢
  exact next_eq_succ sized.mask hi

theorem ringOf_eq {t : OrderIndex} (i : Nat) : ringOf t.slots i = (t.slotAt i).content := rfl

/-- The probe loop ends within one round when the table has an empty slot. -/
theorem probe_spec {t : OrderIndex} {k : Nat} (sized : Sized k t)
    (room : ∃ e < t.capacity, ringOf t.slots e = none) (ref : BitVec 64) :
    ∃ i, t.probe ref = some i ∧ ((t.slotAt i).ref = 0#64 ∨ (t.slotAt i).ref = ref) ∧
      (ref ≠ 0#64 → Stops t.capacity t.homeSlot (ringOf t.slots) ref i) := by
  obtain ⟨e, he, empty⟩ := room
  have ends : ((t.slotAt e).ref == 0#64 || (t.slotAt e).ref == ref) = true := by
    rw [ringOf_eq, content_eq_none] at empty
    simp [empty]
  obtain ⟨i, hi, found, stop, passed⟩ := seek_spec (fun i => (t.slotAt i).ref == 0#64 || (t.slotAt i).ref == ref)
    sized.next (sized.home_lt ref) he ends
  simp only [Bool.or_eq_true, beq_iff_eq] at stop
  refine ⟨i, found, stop, fun nonzero => ⟨hi, ?_, ?_⟩⟩
  · rcases stop with zero | eq
    · exact Or.inl (content_eq_none.mpr zero)
    · exact Or.inr ⟨_, content_eq_some.mpr ⟨nonzero, eq, rfl⟩⟩
  · intro q hq onWay
    have other := passed q hq onWay
    simp only [Bool.or_eq_false_iff, beq_eq_false_iff_ne] at other
    exact ⟨_, _, content_of_ref other.1, other.2⟩

/-- The reinsertion loop ends within one round when the table has an empty slot. -/
theorem probeEmpty_spec {t : OrderIndex} {k : Nat} (sized : Sized k t)
    (room : ∃ e < t.capacity, ringOf t.slots e = none) {ref : BitVec 64}
    (absent : ∀ o, ¬ Holds t.capacity (ringOf t.slots) ref o) :
    ∃ i, t.probeEmpty ref = some i ∧ ringOf t.slots i = none ∧
      Stops t.capacity t.homeSlot (ringOf t.slots) ref i := by
  obtain ⟨e, he, empty⟩ := room
  have ends : ((t.slotAt e).ref == 0#64) = true := by
    rw [ringOf_eq, content_eq_none] at empty
    simp [empty]
  obtain ⟨i, hi, found, stop, passed⟩ := seek_spec (fun i => (t.slotAt i).ref == 0#64)
    sized.next (sized.home_lt ref) he ends
  have here : ringOf t.slots i = none := by
    rw [ringOf_eq, content_eq_none]
    simpa using stop
  refine ⟨i, found, here, hi, Or.inl here, ?_⟩
  intro q hq onWay
  have occupied : (t.slotAt q).ref ≠ 0#64 := by simpa using passed q hq onWay
  refine ⟨_, _, content_of_ref occupied, ?_⟩
  intro same
  change (t.slotAt q).ref = ref at same
  exact absent _ ⟨q, hq, by rw [ringOf_eq, content_of_ref occupied, same]⟩

/-! ## Backward shift -/

/-- The loop of `backward_shift` ends within one round and closes the gap. The
invariant: the array with the hole blanked is a `Gap`, and the empty slot `e`
lies ahead of the cursor and before the hole. -/
theorem shiftLoop_spec {k : Nat} :
    ∀ fuel (slots : Array Slot) hole j e, slots.size = 2 ^ k → hole < 2 ^ k → j < 2 ^ k → e < 2 ^ k →
      Gap (2 ^ k) (homeOf (2 ^ k - 1)) (Function.update (ringOf slots) hole none) hole (succ (2 ^ k) j) →
      ringOf slots e = none → dist (2 ^ k) (succ (2 ^ k) j) e < dist (2 ^ k) hole e →
      dist (2 ^ k) (succ (2 ^ k) j) e < fuel →
      ∃ slots', shiftLoop (2 ^ k - 1) fuel slots hole j = some slots' ∧ slots'.size = 2 ^ k ∧
        Linked (2 ^ k) (homeOf (2 ^ k - 1)) (ringOf slots') ∧
        ∀ ref o, Holds (2 ^ k) (ringOf slots') ref o ↔
          Holds (2 ^ k) (Function.update (ringOf slots) hole none) ref o := by
  intro fuel
  induction fuel with
  | zero => intro _ _ _ _ _ _ _ _ _ _ _ less; omega
  | succ fuel ih =>
    intro slots hole j e size hhole hj he gap empty before less
    have cursor : (j + 1) &&& (2 ^ k - 1) = succ (2 ^ k) j := by rw [and_mask, succ_eq_mod hj]
    have hc : succ (2 ^ k) j < 2 ^ k := succ_lt hj
    generalize succ (2 ^ k) j = c at *
    have apart : c ≠ hole := by rintro rfl; omega
    have read : Function.update (ringOf slots) hole none c = (slots.getD c {}).content :=
      Function.update_of_ne apart _ _
    unfold shiftLoop
    simp only [cursor]
    by_cases zero : (slots.getD c {}).ref = 0#64
    · -- the cursor is on an empty slot: blank the hole
      have blank : ringOf (slots.setIfInBounds hole {}) = Function.update (ringOf slots) hole none :=
        ringOf_set (by omega) {}
      refine ⟨slots.setIfInBounds hole {}, by rw [if_pos zero], by simpa using size, ?_, ?_⟩
      · rw [blank]
        exact gap.close (homeOf_lt k) hhole hc apart (by rw [read, content_eq_none.mpr zero])
      · intro ref o
        rw [blank]
    · rw [if_neg zero]
      have here : Function.update (ringOf slots) hole none c =
          some ((slots.getD c {}).ref, (slots.getD c {}).order) := by rw [read, content_of_ref zero]
      have notEnd : c ≠ e := by
        rintro rfl
        rw [Function.update_of_ne apart, empty] at here
        cases here
      have closer := dist_succ hc he notEnd
      have hhome := homeOf_lt k (slots.getD c {}).ref
      have test : (ringSub (2 ^ k - 1) (homeOf (2 ^ k - 1) (slots.getD c {}).ref) hole ≤
            ringSub (2 ^ k - 1) c hole ∧
          ringSub (2 ^ k - 1) (homeOf (2 ^ k - 1) (slots.getD c {}).ref) hole ≠ 0) ↔
          ¬ OnWay (homeOf (2 ^ k - 1) (slots.getD c {}).ref) hole c := by
        rw [ringSub_eq_dist hhome hhole, ringSub_eq_dist hc hhole]
        exact dist_le_iff hhole hc hhome apart
      by_cases stays : OnWay (homeOf (2 ^ k - 1) (slots.getD c {}).ref) hole c
      · -- the entry moves into the hole
        rw [if_neg (fun keep => test.mp keep stays)]
        have moved : Function.update (ringOf (slots.setIfInBounds hole (slots.getD c {}))) c none =
            Function.update (Function.update (Function.update (ringOf slots) hole none) hole
              (some ((slots.getD c {}).ref, (slots.getD c {}).order))) c none := by
          rw [ringOf_set (by omega), content_of_ref zero, Function.update_idem]
        have holeNotEnd : hole ≠ e := by
          rintro rfl
          have := (dist_eq_zero (n := 2 ^ k) (b := hole) hhole).mpr rfl
          omega
        obtain ⟨slots', done, size', linked, same⟩ := ih (slots.setIfInBounds hole (slots.getD c {})) c c e
          (by simpa using size) hc hc he (by rw [moved]; exact gap.move hhole hc hhome here stays)
          (by rw [ringOf_set (by omega), Function.update_of_ne holeNotEnd.symm]; exact empty) (by omega) (by omega)
        refine ⟨slots', done, size', linked, ?_⟩
        intro ref o
        rw [same, moved]
        exact gap.holds_move hhole hc here ref o
      · -- the entry is between its home and the hole already
        rw [if_pos (test.mpr stays)]
        exact ih slots hole c e size hhole hc he (gap.keep hhole hc here stays) empty (by omega) (by omega)

/-- **Backward shift.** On a linked table with an empty slot, closing the hole at
an occupied slot ends, keeps the table linked and forgets exactly that slot's key. -/
theorem backwardShift_spec {t : OrderIndex} {k : Nat} (sized : Sized k t)
    (linked : Linked t.capacity t.homeSlot (ringOf t.slots)) (room : ∃ e < t.capacity, ringOf t.slots e = none)
    {hole : Nat} (hhole : hole < t.capacity) {ref : BitVec 64} {o : Order} (here : ringOf t.slots hole = some (ref, o)) :
    ∃ slots, shiftLoop t.mask t.capacity t.slots hole hole = some slots ∧ slots.size = t.capacity ∧
      Linked t.capacity t.homeSlot (ringOf slots) ∧
      ∀ ref' o', Holds t.capacity (ringOf slots) ref' o' ↔
        ref' ≠ ref ∧ Holds t.capacity (ringOf t.slots) ref' o' := by
  obtain ⟨e, he, empty⟩ := room
  have homes : t.homeSlot = homeOf (2 ^ k - 1) := by funext r; rw [homeSlot, sized.mask]
  have apart : hole ≠ e := by rintro rfl; rw [empty] at here; cases here
  simp only [sized.mask, sized.capacity, homes] at *
  have ahead := dist_succ hhole he apart
  have bound := dist_lt hhole he
  obtain ⟨slots, done, size, linked', same⟩ := shiftLoop_spec (2 ^ k) t.slots hole hole e sized.capacity hhole
    hhole he (linked.gap hole) empty (by omega) (by omega)
  refine ⟨slots, done, size, linked', ?_⟩
  intro ref' o'
  rw [same]
  exact linked.holds_erase hhole here ref' o'

/-! ## Tables -/

/-- A linked table of `2 ^ k` slots whose size counts its entries. -/
structure Table (k : Nat) (t : OrderIndex) : Prop where
  sized : Sized k t
  linked : Linked t.capacity t.homeSlot (ringOf t.slots)
  size : t.size = t.entries.length

theorem Table.room {k : Nat} {t : OrderIndex} (table : Table k t) (room : t.size < t.capacity) :
    ∃ e < t.capacity, ringOf t.slots e = none :=
  exists_empty (table.size ▸ room)

theorem Table.nodup {k : Nat} {t : OrderIndex} (table : Table k t) : t.entries.Nodup :=
  List.Nodup.of_map _ (entries_nodup table.linked)

/-- The write `insert` and `grow` make at the end of a probe. -/
abbrev storeAt (t : OrderIndex) (i : Nat) (s : Slot) : OrderIndex :=
  { t with slots := t.slots.setIfInBounds i s, size := t.size + 1 }

/-- A write at the end of a probe: one more entry, nothing else changes. -/
theorem Table.store {k : Nat} {t : OrderIndex} (table : Table k t) {ref : BitVec 64} {i : Nat} {s : Slot}
    (stops : Stops t.capacity t.homeSlot (ringOf t.slots) ref i) (empty : ringOf t.slots i = none)
    {o : Order} (entry : s.content = some (ref, o)) :
    Table k (t.storeAt i s) ∧
    ∀ ref' o', (ref', o') ∈ (t.storeAt i s).entries ↔ (ref' = ref ∧ o' = o) ∨ (ref', o') ∈ t.entries := by
  have written : ringOf (t.storeAt i s).slots = Function.update (ringOf t.slots) i (some (ref, o)) := by
    rw [ringOf_set stops.bound, entry]
  have capacity : (t.storeAt i s).capacity = t.capacity := Array.size_setIfInBounds
  have absent := stops.absent table.linked empty
  have same : ∀ ref' o', (ref', o') ∈ (t.storeAt i s).entries ↔ (ref' = ref ∧ o' = o) ∨ (ref', o') ∈ t.entries := by
    intro ref' o'
    rw [mem_entries, mem_entries, capacity, written]
    exact holds_update stops.bound empty ref o ref' o'
  have linked : Linked (t.storeAt i s).capacity (t.storeAt i s).homeSlot (ringOf (t.storeAt i s).slots) := by
    rw [capacity, written]
    exact table.linked.insert stops empty o
  have perm : (t.storeAt i s).entries.Perm ((ref, o) :: t.entries) := by
    apply (List.perm_ext_iff_of_nodup (List.Nodup.of_map _ (entries_nodup linked))
      (List.nodup_cons.mpr ⟨fun member => absent o (mem_entries.mp member), table.nodup⟩)).mpr
    intro e
    rw [same e.1 e.2, List.mem_cons, Prod.ext_iff]
  refine ⟨⟨⟨capacity.trans table.sized.capacity, table.sized.mask⟩, linked, ?_⟩, same⟩
  rw [perm.length_eq, List.length_cons, ← table.size]

/-- One round of `grow`'s loop stores the slot's entry. -/
theorem Table.reinsert {k : Nat} {t : OrderIndex} (table : Table k t) (room : t.size < t.capacity) {s : Slot}
    {ref : BitVec 64} {o : Order} (entry : s.content = some (ref, o)) (absent : ∀ o', (ref, o') ∉ t.entries) :
    Table k (t.reinsert s) ∧ (t.reinsert s).size = t.size + 1 ∧ (t.reinsert s).growAt = t.growAt ∧
    (t.reinsert s).rehashes = t.rehashes ∧
    ∀ ref' o', (ref', o') ∈ (t.reinsert s).entries ↔ (ref' = ref ∧ o' = o) ∨ (ref', o') ∈ t.entries := by
  obtain ⟨nonzero, rfl, rfl⟩ := content_eq_some.mp entry
  obtain ⟨i, found, empty, stops⟩ := probeEmpty_spec table.sized (table.room room)
    (fun o' held => absent o' (mem_entries.mpr held))
  obtain ⟨stored, same⟩ := table.store stops empty entry
  simp only [OrderIndex.reinsert, nonzero, if_false, found]
  exact ⟨stored, trivial, trivial, trivial, same⟩

/-- The whole loop of `grow`: every entry of the old slots arrives. -/
theorem Table.foldl_reinsert {k : Nat} (l : List Slot) :
    ∀ {t : OrderIndex}, Table k t → t.size + (l.filterMap Slot.content).length < t.capacity →
      ((l.filterMap Slot.content).map Prod.fst).Nodup →
      (∀ e ∈ l.filterMap Slot.content, ∀ o, (e.1, o) ∉ t.entries) →
      Table k (l.foldl OrderIndex.reinsert t) ∧ (l.foldl OrderIndex.reinsert t).growAt = t.growAt ∧
      (l.foldl OrderIndex.reinsert t).rehashes = t.rehashes ∧
      ∀ ref o, (ref, o) ∈ (l.foldl OrderIndex.reinsert t).entries ↔
        (ref, o) ∈ t.entries ∨ (ref, o) ∈ l.filterMap Slot.content := by
  induction l with
  | nil =>
    intro t table _ _ _
    exact ⟨table, rfl, rfl, by simp⟩
  | cons s l ih =>
    intro t table room nodup fresh
    rw [List.foldl_cons]
    cases entry : s.content with
    | none =>
      have skip : t.reinsert s = t := by rw [OrderIndex.reinsert, if_pos (content_eq_none.mp entry)]
      rw [List.filterMap_cons_none entry] at room nodup fresh ⊢
      rw [skip]
      exact ih table room nodup fresh
    | some e =>
      obtain ⟨ref, o⟩ := e
      rw [List.filterMap_cons_some entry] at room nodup fresh ⊢
      simp only [List.map_cons, List.nodup_cons, List.length_cons, List.forall_mem_cons] at room nodup fresh
      obtain ⟨table', size', growAt', rehashes', same⟩ := table.reinsert (by omega) entry fresh.1
      have capacity' : (t.reinsert s).capacity = t.capacity := by
        rw [table'.sized.capacity, table.sized.capacity]
      obtain ⟨table'', growAt'', rehashes'', all⟩ := ih table' (by omega) nodup.2 (by
        intro e member o' stored
        rcases (same _ _).mp stored with ⟨eq, _⟩ | old
        · exact nodup.1 (List.mem_map.mpr ⟨e, member, eq⟩)
        · exact fresh.2 e member o' old)
      refine ⟨table'', growAt''.trans growAt', rehashes''.trans rehashes', ?_⟩
      intro ref' o'
      rw [all, same, List.mem_cons, Prod.mk.injEq]
      tauto

/-! ## The invariant -/

/-- What every reachable table satisfies. -/
inductive Inv (t : OrderIndex) : Prop where
  | empty (slots : t.slots = #[]) (size : t.size = 0) (growAt : t.growAt = 0)
  | table (k : Nat) (least : 8 ≤ k) (table : Table k t) (growAt : t.growAt = 2 ^ k - 2 ^ k / 4) (load : t.size ≤ t.growAt)

theorem inv_new : Inv {} := .empty rfl rfl rfl

theorem two_pow_ge {k : Nat} (least : 8 ≤ k) : 256 ≤ 2 ^ k := by
  calc 256 = 2 ^ 8 := rfl
    _ ≤ 2 ^ k := Nat.pow_le_pow_right (by omega) least

theorem Inv.size {t : OrderIndex} (inv : Inv t) : t.size = t.entries.length := by
  cases inv with
  | empty slots size _ => simp [entries, slots, size]
  | table k least table growAt load => exact table.size

theorem Inv.nodup {t : OrderIndex} (inv : Inv t) : (t.entries.map Prod.fst).Nodup := by
  cases inv with
  | empty slots _ _ => simp [entries, slots]
  | table k least table growAt load => exact entries_nodup table.linked

/-- The key 0 is never live. -/
theorem zero_notMem_entries (t : OrderIndex) (o : Order) : (0#64, o) ∉ t.entries := by
  rw [mem_entries]
  rintro ⟨p, _, stored⟩
  exact (content_eq_some.mp stored).1 rfl

/-- A table that holds an entry keeps an empty slot. -/
theorem Inv.room {t : OrderIndex} (inv : Inv t) (occupied : t.size ≠ 0) :
    ∃ k, 8 ≤ k ∧ Table k t ∧ (t.growAt = 2 ^ k - 2 ^ k / 4 ∧ t.size ≤ t.growAt) ∧
      ∃ e < t.capacity, ringOf t.slots e = none := by
  cases inv with
  | empty _ size _ => exact absurd size occupied
  | table k least table growAt load =>
    have big := two_pow_ge least
    exact ⟨k, least, table, ⟨growAt, load⟩, table.room (by rw [table.sized.capacity]; omega)⟩

theorem entries_replicate (n mask size growAt rehashes : Nat) :
    (OrderIndex.mk (Array.replicate n {}) mask size growAt rehashes).entries = [] := by
  apply List.filterMap_eq_nil_iff.mpr
  intro s member
  rw [Array.toList_replicate] at member
  rw [List.eq_of_mem_replicate member]
  rfl

theorem table_fresh (t : OrderIndex) {k : Nat} (size : t.fresh.capacity = 2 ^ k) : Table k t.fresh := by
  have nothing : t.fresh.entries = [] := entries_replicate _ _ _ _ _
  have ring : ∀ p, ringOf t.fresh.slots p = none := by
    intro p
    simp only [ringOf, fresh, Array.getD_eq_getD_getElem?, Array.getElem?_replicate]
    split <;> split <;> rfl
  refine ⟨⟨size, ?_⟩, ⟨?_, ?_⟩, by rw [nothing]; rfl⟩
  · rw [← size]
    simp [fresh, capacity]
  · intro p _ ref o stored
    rw [ring] at stored
    cases stored
  · intro p _ q _ ref o o' stored
    rw [ring] at stored
    cases stored

/-- The new table `grow` starts from has room for the old entries and one more below its load bound. -/
theorem Inv.fresh_fits {t : OrderIndex} (inv : Inv t) :
    ∃ k, 8 ≤ k ∧ t.fresh.capacity = 2 ^ k ∧ t.entries.length + 1 ≤ 2 ^ k - 2 ^ k / 4 := by
  cases inv with
  | empty slots _ _ => exact ⟨8, le_refl 8, by simp [fresh, slots, capacity, kInitial], by simp [entries, slots]⟩
  | table k least table growAt load =>
    have big := two_pow_ge least
    have nonempty : t.slots.isEmpty = false := by
      have := table.sized.capacity
      simp only [capacity] at this
      simp only [Array.isEmpty, decide_eq_false_iff_not]
      omega
    refine ⟨k + 1, by omega, ?_, ?_⟩
    · have cap := table.sized.capacity
      simp only [capacity] at cap
      simp [fresh, nonempty, capacity, cap, pow_succ]
    · rw [← table.size, pow_succ]
      omega

/-- `grow` keeps every entry, and the new table has room. -/
theorem Inv.grow {t : OrderIndex} (inv : Inv t) :
    ∃ k, 8 ≤ k ∧ Table k t.grow ∧ t.grow.growAt = 2 ^ k - 2 ^ k / 4 ∧ t.grow.size + 1 ≤ t.grow.growAt ∧
      ∀ ref o, (ref, o) ∈ t.grow.entries ↔ (ref, o) ∈ t.entries := by
  obtain ⟨k, least, size, fits⟩ := inv.fresh_fits
  have big := two_pow_ge least
  have growAt : t.fresh.growAt = 2 ^ k - 2 ^ k / 4 := by
    rw [← size]
    simp [fresh, capacity]
  have nothing : t.fresh.entries = [] := entries_replicate _ _ _ _ _
  obtain ⟨table, growAt', _, same⟩ := Table.foldl_reinsert t.slots.toList (table_fresh t size)
    (by
      change 0 + t.entries.length < t.fresh.capacity
      omega)
    inv.nodup (by rw [nothing]; simp)
  have same' : ∀ ref o, (ref, o) ∈ t.grow.entries ↔ (ref, o) ∈ t.entries := by
    intro ref o
    have := same ref o
    rw [nothing] at this
    simp only [List.not_mem_nil, false_or] at this
    exact this
  have perm : t.grow.entries.Perm t.entries :=
    (List.perm_ext_iff_of_nodup (Table.nodup table) (List.Nodup.of_map _ inv.nodup)).mpr fun e => same' e.1 e.2
  refine ⟨k, least, table, growAt'.trans growAt, ?_, same'⟩
  have count : t.grow.size = t.entries.length := table.size.trans perm.length_eq
  have limit : t.grow.growAt = 2 ^ k - 2 ^ k / 4 := growAt'.trans growAt
  omega

end Nts.OrderIndex
