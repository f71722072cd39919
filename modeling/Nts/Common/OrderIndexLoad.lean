import Nts.Common.OrderIndexMap

/-!
# The load of a table

No loop of `OrderIndex` carries a bound. All of them end because a table never fills up: a reachable table holds at
most three quarters of what it could hold, so a walk round the ring comes to an empty slot. The price is
the doubling, and the growth test of `insert` stands in front of the duplicate check: a refused
`insert` leaves the table as it was unless the table was about to double.
-/

namespace Nts.OrderIndex
open LinearProbe

variable {t : OrderIndex}

/-! ## The loops -/

/-- The number of occupied slots. -/
def occupied (t : OrderIndex) : Nat := t.slots.toList.countP fun s => s.ref ≠ 0#64

theorem occupied_eq (t : OrderIndex) : t.occupied = t.entries.length := by
  rw [entries, List.length_filterMap_eq_countP, occupied]
  apply List.countP_congr
  intro s _
  by_cases empty : s.ref = 0#64
  · simp [Slot.content, empty]
  · simp [Slot.content, empty]

/-- Capacity, size and load bound fit together, and where there are slots one of them is empty. -/
structure Loaded (t : OrderIndex) : Prop where
  capacity : t.capacity = 0 ∨ 256 ≤ t.capacity ∧ ∃ k, t.capacity = 2 ^ k
  size : t.size = t.occupied
  growAt : 4 * t.growAt = 3 * t.capacity
  load : t.size ≤ t.growAt
  room : t.capacity ≠ 0 → ∃ e < t.capacity, (t.slotAt e).ref = 0#64

/-- Every loop the next call can enter ends within as many rounds as the table has slots: the probe loops, the loop of
`backward_shift` behind the erasure of any slot, and, if the call makes the table grow, the reinsertion
of each slot behind the slots already moved. -/
structure LoopsEnd (t : OrderIndex) : Prop extends ProbesEnd t where
  shift : ∀ hole < t.capacity, (t.slotAt hole).ref ≠ 0#64 → (shiftLoop t.mask t.capacity t.slots hole hole).isSome
  grow : ∀ moved s rest, t.slots.toList = moved ++ s :: rest → s.ref ≠ 0#64 →
    ((moved.foldl reinsert t.fresh).probeEmpty s.ref).isSome

theorem Inv.loaded (inv : Inv t) : Loaded t := by
  have size := inv.size.trans t.occupied_eq.symm
  cases inv with
  | empty slots none growAt =>
    have capacity : t.capacity = 0 := by rw [OrderIndex.capacity, slots]; rfl
    exact ⟨.inl capacity, size, by omega, by omega, fun nonzero => (nonzero capacity).elim⟩
  | table k least table growAt load =>
    have big := two_pow_ge least
    have capacity := table.sized.capacity
    have quarters : 2 ^ k = 4 * 2 ^ (k - 2) := by
      calc 2 ^ k = 2 ^ (2 + (k - 2)) := by congr 1; omega
        _ = 4 * 2 ^ (k - 2) := pow_add 2 2 (k - 2)
    obtain ⟨e, he, empty⟩ := table.room (by omega)
    exact ⟨.inr ⟨by omega, k, capacity⟩, size, by omega, load, fun _ => ⟨e, he, content_eq_none.mp empty⟩⟩

/-- The loop of `grow` has room for the slot it comes to. -/
theorem Inv.reinsertion_ends (inv : Inv t) {moved rest : List Slot} {s : Slot} (slots : t.slots.toList = moved ++ s :: rest)
    (nonzero : s.ref ≠ 0#64) : ((moved.foldl reinsert t.fresh).probeEmpty s.ref).isSome := by
  obtain ⟨k, _, size, fits⟩ := inv.fresh_fits
  have nothing : t.fresh.entries = [] := entries_replicate _ _ _ _ _
  have parts : t.entries = moved.filterMap Slot.content ++ (s.ref, s.order) :: rest.filterMap Slot.content := by
    rw [entries, slots, List.filterMap_append, List.filterMap_cons_some (content_of_ref nonzero)]
  have nodup := inv.nodup
  rw [parts, List.map_append, List.nodup_append] at nodup
  rw [parts, List.length_append, List.length_cons] at fits
  -- the new table while the slots in front of `s` have been moved
  obtain ⟨table, _, _, same⟩ := Table.foldl_reinsert moved (table_fresh t size)
    (by
      change 0 + (moved.filterMap Slot.content).length < t.fresh.capacity
      omega)
    nodup.1 (by rw [nothing]; simp)
  have stored : ∀ ref o, (ref, o) ∈ (moved.foldl reinsert t.fresh).entries ↔ (ref, o) ∈ moved.filterMap Slot.content := by
    intro ref o
    rw [same, nothing]
    simp only [List.not_mem_nil, false_or]
  have perm : (moved.foldl reinsert t.fresh).entries.Perm (moved.filterMap Slot.content) :=
    (List.perm_ext_iff_of_nodup table.nodup (List.Nodup.of_map _ nodup.1)).mpr fun e => stored e.1 e.2
  have room : (moved.foldl reinsert t.fresh).size < (moved.foldl reinsert t.fresh).capacity := by
    rw [table.size, perm.length_eq, table.sized.capacity]
    omega
  have absent : ∀ o, ¬ Holds (moved.foldl reinsert t.fresh).capacity (ringOf (moved.foldl reinsert t.fresh).slots) s.ref o := by
    intro o held
    have member := List.mem_map_of_mem (f := Prod.fst) ((stored _ _).mp (mem_entries.mpr held))
    exact nodup.2.2 _ member s.ref List.mem_cons_self rfl
  obtain ⟨i, found, _⟩ := probeEmpty_spec table.sized (table.room room) absent
  rw [found]
  rfl

theorem Rep.loopsEnd {m : OrderMap} (rep : Rep t m) : LoopsEnd t where
  toProbesEnd := rep.probesEnd
  shift := by
    intro hole hhole occupied
    have here : ringOf t.slots hole = some ((t.slotAt hole).ref, (t.slotAt hole).order) := content_of_ref occupied
    have nonzero : t.size ≠ 0 := by
      rw [rep.inv.size]
      exact List.ne_nil_iff_length_pos.mp (List.ne_nil_of_mem (mem_entries.mpr ⟨hole, hhole, here⟩)) |>.ne'
    obtain ⟨k, _, table, _, room⟩ := rep.inv.room nonzero
    obtain ⟨slots, done, _⟩ := backwardShift_spec table.sized table.linked room hhole here
    rw [done]
    rfl
  grow := fun _ _ _ => rep.inv.reinsertion_ends

/-- **The loops end.** After every history of calls capacity, size and load bound fit together, an empty slot is left
wherever there are slots, and every loop the next call can enter ends within capacity rounds. -/
theorem index_loops_end (cs : List Call) : Loaded (Runs.after step {} cs) ∧ LoopsEnd (Runs.after step {} cs) :=
  ⟨(rep_run cs).1.inv.loaded, (rep_run cs).1.loopsEnd⟩

/-! ## Refused insertions -/

/-- `insert` refuses 0 and every live reference, and then every field of the table is as before. -/
def RefusesUntouched (t : OrderIndex) (ref : BitVec 64) : Prop := (ref = 0#64 ∨ ∃ o, (ref, o) ∈ t.entries) →
  ∀ (qty price : BitVec 32) (buy : Bool), t.insert ref qty price buy = (t, false)

/-- The reference is live and the next insertion makes the table grow. -/
def DoublesFor (t : OrderIndex) (ref : BitVec 64) : Prop := (∃ o, (ref, o) ∈ t.entries) ∧ t.size + 1 > t.growAt

theorem reinsert_rehashes (t : OrderIndex) (s : Slot) : (t.reinsert s).rehashes = t.rehashes := by
  unfold reinsert
  split
  · rfl
  · split <;> rfl

/-- `grow` counts a rehash unless there was no slot. -/
theorem grow_rehashes (t : OrderIndex) : t.grow.rehashes = if t.slots.isEmpty then t.rehashes else t.rehashes + 1 := by
  have kept : ∀ (slots : List Slot) (t : OrderIndex), (slots.foldl reinsert t).rehashes = t.rehashes := by
    intro slots
    induction slots with
    | nil => exact fun _ => rfl
    | cons s slots ih => exact fun t => (ih _).trans (reinsert_rehashes t s)
  rw [grow, kept]
  rfl

theorem Rep.refusesUntouched_iff {m : OrderMap} (rep : Rep t m) (ref : BitVec 64) :
    t.RefusesUntouched ref ↔ ¬ t.DoublesFor ref := by
  have live : (∃ o, (ref, o) ∈ t.entries) ↔ ref ∈ m := by
    rw [Finmap.mem_iff]
    exact exists_congr (rep.same ref)
  rw [RefusesUntouched, DoublesFor, live]
  constructor
  · rintro untouched ⟨here, full⟩
    have same := untouched (Or.inr here) 0#32 0#32 false
    rw [rep.insert_live here, OrderIndex.ensureRoom, if_pos full] at same
    have rehashed := (grow_rehashes t).symm.trans (congrArg rehashes (Prod.mk.inj same).1)
    -- a table with a live key has slots
    have allocated : ¬ t.slots.isEmpty := by
      rw [Array.isEmpty_iff]
      intro unallocated
      obtain ⟨o, stored⟩ := live.mpr here
      rw [OrderIndex.entries, unallocated] at stored
      cases stored
    rw [if_neg allocated] at rehashed
    omega
  · intro fits refused qty price buy
    rcases refused with zero | here
    · rw [OrderIndex.insert, if_pos zero]
    · rw [rep.insert_live here, OrderIndex.ensureRoom, if_neg fun full => fits ⟨here, full⟩]

/-- **Refused insertions** into a reachable table: `insert` of 0 or of a live reference changes nothing, except that a
table about to double does so before the reference is found. -/
theorem refused_untouched_iff (cs : List Call) (ref : BitVec 64) :
    (Runs.after step {} cs).RefusesUntouched ref ↔ ¬ (Runs.after step {} cs).DoublesFor ref :=
  (rep_run cs).1.refusesUntouched_iff ref

/-- At 192 orders in 256 slots a repeated reference doubles the table. -/
theorem refused_insert_doubles : ¬ ∀ (cs : List Call) (ref : BitVec 64), (Runs.after step {} cs).RefusesUntouched ref := by
  intro all
  have full : ∀ t ∈ [Runs.after step {} ((List.range 192).map fun i => .insert (.ofNat 64 (i + 1)) 5#32 100#32 true)],
      (1#64, (⟨packShares 5#32 true, 100#32⟩ : Order)) ∈ t.entries ∧ t.size + 1 > t.growAt := by decide +kernel
  obtain ⟨live, limit⟩ := full _ List.mem_cons_self
  exact ((rep_run _).1.refusesUntouched_iff 1#64).mp (all _ _) ⟨⟨_, live⟩, limit⟩

end Nts.OrderIndex
