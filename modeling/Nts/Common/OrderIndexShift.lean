import Nts.Common.OrderIndexMap

/-!
# `backward_shift` on any table

What `backward_shift` needs of a table is said here in the source's own terms: a power of two of slots, an empty
one among them, no key twice, and every slot from a key's home forward to the key occupied. Nothing is assumed
about the counters or about how the table came to be. Closing any occupied slot then
loses the entry of that slot and no other, and leaves such a table behind.
-/

namespace Nts.OrderIndex
open LinearProbe

/-- No probe chain is broken: going forward round the ring, every slot from the home of a key to its own is occupied. -/
def Chained (t : OrderIndex) : Prop := ∀ p < t.capacity, (t.slotAt p).ref ≠ 0#64 →
  ∀ m ≤ ringSub t.mask p (t.homeSlot (t.slotAt p).ref),
    (t.slotAt ((t.homeSlot (t.slotAt p).ref + m) &&& t.mask)).ref ≠ 0#64

instance (t : OrderIndex) : Decidable t.Chained := by unfold Chained; infer_instance

/-- A table that can be probed: sized, with an empty slot, distinct keys and no broken chain. -/
structure Unbroken (k : Nat) (t : OrderIndex) : Prop extends Sized k t where
  room : ∃ e < t.capacity, (t.slotAt e).ref = 0#64
  distinct : ∀ p < t.capacity, ∀ q < t.capacity, (t.slotAt p).ref ≠ 0#64 → (t.slotAt p).ref = (t.slotAt q).ref → p = q
  chained : t.Chained

section
variable {t : OrderIndex} {k : Nat}

/-- The chain of one key, counted in steps from its home and walked over the ring. -/
theorem chain_iff {slots : Array Slot} {home p : Nat} (hhome : home < 2 ^ k) (hp : p < 2 ^ k)
    (here : ringOf slots p ≠ none) :
    (∀ m ≤ ringSub (2 ^ k - 1) p home, ringOf slots ((home + m) &&& (2 ^ k - 1)) ≠ none) ↔
      ∀ q < 2 ^ k, OnWay home q p → ringOf slots q ≠ none := by
  rw [ringSub_eq_dist hp hhome]
  constructor
  · intro steps q hq onWay
    have less := (onWay_iff_dist hhome hq hp).mp onWay
    have occupied := steps (dist (2 ^ k) home q) (Nat.le_of_lt less)
    rwa [and_mask, add_dist_mod hhome hq] at occupied
  · intro chain m le
    have bound : m < 2 ^ k := Nat.lt_of_le_of_lt le (dist_lt hhome hp)
    rw [and_mask]
    have hq : (home + m) % 2 ^ k < 2 ^ k := Nat.mod_lt _ Nat.one_le_two_pow
    have steps := dist_add_mod hhome bound
    rcases Nat.lt_or_eq_of_le le with less | last
    · apply chain _ hq
      rw [onWay_iff_dist hhome hq hp, steps]
      exact less
    · rw [last, add_dist_mod hhome hp]
      exact here

/-- An unbroken table in terms of its ring. -/
theorem Unbroken.linked (unbroken : Unbroken k t) : Linked t.capacity t.homeSlot (ringOf t.slots) where
  chain := by
    intro p hp ref o stored
    obtain ⟨nonzero, rfl, rfl⟩ := content_eq_some.mp stored
    have steps := unbroken.chained p hp nonzero
    have hhome := unbroken.home_lt (t.slotAt p).ref
    have here : ringOf t.slots p ≠ none := by simp [stored]
    simp only [unbroken.mask, unbroken.capacity] at steps hp hhome ⊢
    apply (chain_iff hhome hp here).mp
    intro m le
    rw [ringOf_eq, Ne, content_eq_none]
    exact steps m le
  distinct := by
    intro p hp q hq ref o o' left right
    obtain ⟨nonzero, rfl, _⟩ := content_eq_some.mp left
    obtain ⟨_, same, _⟩ := content_eq_some.mp right
    exact unbroken.distinct p hp q hq nonzero same.symm

/-- A linked ring with an empty position is an unbroken table. -/
theorem Sized.unbroken (sized : Sized k t) (linked : Linked t.capacity t.homeSlot (ringOf t.slots))
    (room : t.entries.length < t.capacity) : Unbroken k t where
  toSized := sized
  room := by
    obtain ⟨e, he, empty⟩ := exists_empty room
    exact ⟨e, he, content_eq_none.mp empty⟩
  distinct := by
    intro p hp q hq nonzero same
    have right : ringOf t.slots q = some ((t.slotAt p).ref, (t.slotAt q).order) :=
      content_eq_some.mpr ⟨nonzero, same.symm, rfl⟩
    exact linked.distinct p hp q hq _ _ _ (content_of_ref nonzero) right
  chained := by
    intro p hp nonzero
    have stored : ringOf t.slots p = some ((t.slotAt p).ref, (t.slotAt p).order) := content_of_ref nonzero
    have chain := linked.chain p hp _ _ stored
    have hhome := sized.home_lt (t.slotAt p).ref
    have here : ringOf t.slots p ≠ none := by simp [stored]
    simp only [sized.mask, sized.capacity] at chain hp hhome ⊢
    intro m le
    have occupied := (chain_iff hhome hp here).mpr chain m le
    rwa [ringOf_eq, Ne, content_eq_none] at occupied

/-- An unbroken table has fewer entries than slots. -/
theorem Unbroken.entries_lt (unbroken : Unbroken k t) : t.entries.length < t.capacity := by
  obtain ⟨e, he, empty⟩ := unbroken.room
  rw [entries, capacity, ← Array.length_toList]
  apply List.length_filterMap_lt_length_iff_exists.mpr
  have bound : e < t.slots.size := he
  refine ⟨t.slots[e], Array.mem_toList_iff.mpr (Array.getElem_mem bound), content_eq_none.mpr ?_⟩
  simpa [slotAt, Array.getD_eq_getD_getElem?, bound] using empty

end

/-- **Closing a hole.** On every unbroken table and for every occupied slot, `backward_shift` loses the entry of
that slot and no other, one slot fewer is occupied, and the table is unbroken as before. -/
theorem backward_shift_closes {k : Nat} {t : OrderIndex} (unbroken : Unbroken k t) {p : Nat} (hp : p < t.capacity)
    (occupied : (t.slotAt p).ref ≠ 0#64) :
    (t.backwardShift p).entries.Perm (t.entries.erase ((t.slotAt p).ref, (t.slotAt p).order)) ∧
    (t.backwardShift p).entries.length + 1 = t.entries.length ∧
    Unbroken k (t.backwardShift p) ∧
    t.backwardShift p = { t with slots := (t.backwardShift p).slots } := by
  have here : ringOf t.slots p = some ((t.slotAt p).ref, (t.slotAt p).order) := content_of_ref occupied
  have linked := unbroken.linked
  obtain ⟨slots, done, size, linked', same⟩ := backwardShift_spec unbroken.toSized linked
    (exists_empty unbroken.entries_lt) hp here
  have shifted : t.backwardShift p = { t with slots } := by simp only [backwardShift, done]
  have capacity : ({ t with slots } : OrderIndex).capacity = t.capacity := size
  have sized : Sized k { t with slots } := ⟨capacity.trans unbroken.capacity, unbroken.mask⟩
  have linkedAfter : Linked ({ t with slots } : OrderIndex).capacity ({ t with slots } : OrderIndex).homeSlot
      (ringOf ({ t with slots } : OrderIndex).slots) := by
    rw [capacity]
    exact linked'
  have member : ((t.slotAt p).ref, (t.slotAt p).order) ∈ t.entries := mem_entries.mpr ⟨p, hp, here⟩
  have nodup : t.entries.Nodup := List.Nodup.of_map _ (entries_nodup linked)
  have perm : ({ t with slots } : OrderIndex).entries.Perm (t.entries.erase ((t.slotAt p).ref, (t.slotAt p).order)) := by
    apply (List.perm_ext_iff_of_nodup (List.Nodup.of_map _ (entries_nodup linkedAfter)) (nodup.erase _)).mpr
    rintro ⟨ref, o⟩
    rw [mem_entries, capacity, same, nodup.mem_erase_iff, ← mem_entries]
    constructor
    · rintro ⟨other, stored⟩
      exact ⟨fun eq => other (congrArg Prod.fst eq), stored⟩
    · rintro ⟨other, stored⟩
      refine ⟨?_, stored⟩
      rintro rfl
      -- two orders under one key
      obtain ⟨q, hq, there⟩ := mem_entries.mp stored
      obtain rfl := linked.distinct q hq p hp _ _ _ there here
      rw [here] at there
      exact other (Option.some.inj there).symm
  have length := perm.length_eq
  rw [List.length_erase_of_mem member] at length
  have positive := List.length_pos_of_mem member
  have room := unbroken.entries_lt
  rw [shifted]
  refine ⟨perm, by omega, sized.unbroken linkedAfter ?_, rfl⟩
  rw [capacity]
  omega

/-- A cluster that wraps past the end of the array: the hole at its first slot moves three times. -/
theorem backward_shift_closes_wrapped :
    Unbroken 3 ((⟨#[⟨16, {}⟩, ⟨2, {}⟩, ⟨9, {}⟩, ⟨3, {}⟩, {}, {}, {}, ⟨11, {}⟩], 7, 5, 6, 0⟩ : OrderIndex).backwardShift 7) :=
  (backward_shift_closes (k := 3) (t := ⟨#[⟨16, {}⟩, ⟨2, {}⟩, ⟨9, {}⟩, ⟨3, {}⟩, {}, {}, {}, ⟨11, {}⟩], 7, 5, 6, 0⟩)
    ⟨⟨rfl, rfl⟩, ⟨4, by decide, by decide⟩, by decide, by decide +kernel⟩ (p := 7) (by decide) (by decide)).2.2.1

end Nts.OrderIndex
