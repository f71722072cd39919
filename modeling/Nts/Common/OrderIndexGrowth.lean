import Nts.Lib.Doubling
import Nts.Common.OrderIndexLoad

/-!
# The growth of a table

The only operation of `OrderIndex` that is not a probe is `grow`, which walks the whole old table. `demand` reads off the finite map how
many entries an `insert` ever asked room for. Capacity and `rehashes()` are functions of it (the table never
shrinks, and a refused `insert` asks too), and the walks of all rebuilds together are linear in it.
-/

namespace Nts.OrderIndex
open Runs

variable {t : OrderIndex} {m : OrderMap}

/-- How many entries a call asks room for. -/
def OrderMap.asks (m : OrderMap) : Call → Nat
  | .insert ref .. => if ref = 0#64 then 0 else m.keys.card + 1
  | _ => 0

/-- The most entries that the calls ever ask room for. -/
def OrderMap.demand : OrderMap → List Call → Nat
  | _, [] => 0
  | m, c :: cs => max (OrderMap.asks m c) (OrderMap.demand (OrderMap.step m c).1 cs)

/-- The old slots that the loop of `grow` goes through in a call. -/
def walks (t : OrderIndex) : Call → Nat
  | .insert ref .. => if ref ≠ 0#64 ∧ t.size + 1 > t.growAt then t.slots.size else 0
  | _ => 0

/-- The old slots that all rebuilds go through. -/
def walked : OrderIndex → List Call → Nat
  | _, [] => 0
  | t, c :: cs => t.walks c + walked (t.step c).1 cs

/-! ## What the calls do to the capacity -/

theorem reinsert_size (t : OrderIndex) (s : Slot) : (t.reinsert s).slots.size = t.slots.size := by
  unfold reinsert
  split
  · rfl
  · split
    · exact Array.size_setIfInBounds ..
    · rfl

theorem grow_size (t : OrderIndex) : t.grow.slots.size = if t.slots.size = 0 then kInitial else 2 * t.slots.size := by
  have kept : ∀ (slots : List Slot) (t : OrderIndex), (slots.foldl reinsert t).slots.size = t.slots.size := by
    intro slots
    induction slots with
    | nil => exact fun _ => rfl
    | cons s slots ih => exact fun t => (ih _).trans (reinsert_size t s)
  rw [grow, kept, fresh]
  dsimp only
  rw [Array.size_replicate]
  by_cases none : t.slots.size = 0
  · rw [if_pos none, if_pos (Array.isEmpty_iff_size_eq_zero.mpr none)]
  · rw [if_neg none, if_neg (mt Array.isEmpty_iff_size_eq_zero.mp none), Nat.mul_comm]

theorem insert_size (t : OrderIndex) {ref : BitVec 64} (nonzero : ref ≠ 0#64) (qty price : BitVec 32) (buy : Bool) :
    (t.insert ref qty price buy).1.slots.size = t.ensureRoom.slots.size ∧
      (t.insert ref qty price buy).1.rehashes = t.ensureRoom.rehashes := by
  unfold OrderIndex.insert
  rw [if_neg nonzero]
  dsimp only
  split
  · split
    · exact ⟨Array.size_setIfInBounds .., rfl⟩
    · exact ⟨rfl, rfl⟩
  · exact ⟨rfl, rfl⟩

theorem shiftLoop_size {mask fuel : Nat} {slots slots' : Array Slot} {hole j : Nat}
    (done : shiftLoop mask fuel slots hole j = some slots') : slots'.size = slots.size := by
  induction fuel generalizing slots hole j with
  | zero => cases done
  | succ fuel ih =>
    simp only [shiftLoop] at done
    split at done
    · obtain rfl := Option.some.inj done
      exact Array.size_setIfInBounds ..
    · split at done
      · exact ih done
      · exact (ih done).trans (Array.size_setIfInBounds ..)

theorem erase_size (t : OrderIndex) (ref : BitVec 64) :
    (t.erase ref).1.slots.size = t.slots.size ∧ (t.erase ref).1.rehashes = t.rehashes := by
  have shift : ∀ hole, (t.backwardShift hole).slots.size = t.slots.size ∧ (t.backwardShift hole).rehashes = t.rehashes := by
    intro hole
    rw [backwardShift]
    split
    · next done => exact ⟨shiftLoop_size done, rfl⟩
    · exact ⟨rfl, rfl⟩
  unfold OrderIndex.erase
  split
  · exact ⟨rfl, rfl⟩
  · split
    · split
      · exact ⟨rfl, rfl⟩
      · exact shift _
    · exact ⟨rfl, rfl⟩

/-- The table as a store that doubles, with the walks so far. -/
def store (t : OrderIndex) (walked : Nat) : Doubling.State := ⟨t.capacity, t.rehashes, walked⟩

/-- **One call** makes the store ask for what the map says. -/
theorem Rep.store_step (rep : Rep t m) (c : Call) (walked : Nat) :
    (t.step c).1.store (walked + t.walks c) = Doubling.ask kInitial (t.store walked) (OrderMap.asks m c) := by
  have quiet : ∀ t' : OrderIndex, t'.slots.size = t.slots.size ∧ t'.rehashes = t.rehashes →
      t'.store (walked + 0) = Doubling.ask kInitial (t.store walked) 0 := by
    rintro t' ⟨size, rehashes⟩
    rw [Doubling.ask_within (Nat.zero_le _), store, store, capacity, capacity, size, rehashes, Nat.add_zero]
  cases c with
  | insert ref qty price buy =>
    by_cases zero : ref = 0#64
    · have unchanged : t.step (.insert ref qty price buy) = (t, .flag false) := by
        simp only [OrderIndex.step, OrderIndex.insert, if_pos zero]
      have asks : OrderMap.asks m (.insert ref qty price buy) = 0 := if_pos zero
      have walks : t.walks (.insert ref qty price buy) = 0 := if_neg fun both => both.1 zero
      rw [unchanged, asks, walks]
      exact quiet t ⟨rfl, rfl⟩
    · obtain ⟨size, rehashes⟩ := t.insert_size zero qty price buy
      obtain ⟨_, _, growAt, _, _⟩ := rep.inv.loaded
      have count := rep.size
      have asks : OrderMap.asks m (.insert ref qty price buy) = m.keys.card + 1 := if_neg zero
      have stored : ∀ w, (t.step (.insert ref qty price buy)).1.store w = t.ensureRoom.store w := by
        intro w
        rw [OrderIndex.step, store, store, capacity, capacity, size, rehashes]
      rw [asks, stored]
      by_cases full : t.size + 1 > t.growAt
      · have walks : t.walks (.insert ref qty price buy) = t.slots.size := if_pos ⟨zero, full⟩
        have grown : t.ensureRoom = t.grow := if_pos full
        have more : 3 * (t.store walked).capacity < 4 * (m.keys.card + 1) := by
          change 3 * t.capacity < _
          omega
        rw [walks, grown, store, capacity, grow_size, grow_rehashes]
        by_cases none : t.slots.size = 0
        · rw [Doubling.ask_first more none, if_pos none, if_pos (Array.isEmpty_iff_size_eq_zero.mpr none), none, Nat.add_zero]
          rfl
        · rw [Doubling.ask_doubles more none, if_neg none, if_neg (mt Array.isEmpty_iff_size_eq_zero.mp none)]
          rfl
      · have walks : t.walks (.insert ref qty price buy) = 0 := if_neg fun both => full both.2
        have kept : t.ensureRoom = t := if_neg full
        have within : 4 * (m.keys.card + 1) ≤ 3 * (t.store walked).capacity := by
          change _ ≤ 3 * t.capacity
          omega
        rw [walks, kept, Doubling.ask_within within, Nat.add_zero]
  | find ref => exact quiet t ⟨rfl, rfl⟩
  | erase ref => exact quiet _ (t.erase_size ref)
  | update ref shares =>
    refine quiet _ ?_
    simp only [OrderIndex.step]
    split
    · exact ⟨Array.size_setIfInBounds .., rfl⟩
    · exact ⟨rfl, rfl⟩

/-- The store behind a history has met the largest need of it. -/
theorem Rep.fits_run (rep : Rep t m) {d before : Nat} (fits : Doubling.Fits kInitial (t.store before) d) (cs : List Call) :
    Doubling.Fits kInitial ((after OrderIndex.step t cs).store (before + walked t cs)) (max d (OrderMap.demand m cs)) := by
  induction cs generalizing t m d before with
  | nil =>
    rw [OrderMap.demand, Nat.max_zero, walked, Nat.add_zero]
    exact fits
  | cons c cs ih =>
    obtain ⟨capacity, size, growAt, load, _⟩ := rep.inv.loaded
    have one : 4 * OrderMap.asks m c ≤ 3 * (t.store before).capacity + 4 := by
      have count := rep.size
      change _ ≤ 3 * t.capacity + 4
      cases c with
      | insert ref qty price buy =>
        simp only [OrderMap.asks]
        split <;> omega
      | find ref => exact Nat.zero_le _
      | erase ref => exact Nat.zero_le _
      | update ref shares => exact Nat.zero_le _
    have next := fits.ask (by decide) one
    rw [← rep.store_step c before] at next
    have rest := ih (rep.step c).1 next
    rw [after_cons, walked, OrderMap.demand, ← Nat.add_assoc, ← Nat.max_assoc]
    exact rest

/-- The call is an `insert`. -/
def Call.inserts : Call → Bool
  | .insert .. => true
  | _ => false

/-- Every `insert` asks for one entry more at most. -/
theorem demand_le (m : OrderMap) (cs : List Call) : OrderMap.demand m cs ≤ m.keys.card + cs.countP Call.inserts := by
  induction cs generalizing m with
  | nil => exact Nat.zero_le _
  | cons c cs ih =>
    have rest := ih (OrderMap.step m c).1
    rw [OrderMap.demand, List.countP_cons]
    have here : OrderMap.asks m c ≤ m.keys.card + (if c.inserts then 1 else 0) := by
      cases c with
      | insert ref qty price buy =>
        simp only [OrderMap.asks, Call.inserts, if_true]
        split <;> omega
      | find ref => exact Nat.zero_le _
      | erase ref => exact Nat.zero_le _
      | update ref shares => exact Nat.zero_le _
    have grown : (OrderMap.step m c).1.keys.card ≤ m.keys.card + (if c.inserts then 1 else 0) := by
      cases c with
      | insert ref qty price buy =>
        simp only [OrderMap.step, Call.inserts, if_true]
        split
        · next new => rw [← Finmap.total_one, Finmap.total_insert_new new.2, Finmap.total_one, Nat.add_comm]
        · exact Nat.le_succ _
      | find ref => exact le_refl _
      | erase ref =>
        simp only [OrderMap.step, Finmap.keys_erase]
        exact (Finset.card_erase_le).trans (Nat.le_add_right _ _)
      | update ref shares =>
        simp only [OrderMap.step]
        cases live : m.lookup ref with
        | none => exact le_refl _
        | some o =>
          dsimp only
          rw [← Finmap.total_one, ← Finmap.total_one, Finmap.total_insert, Finmap.total_of_lookup live]
          exact Nat.le_add_right _ _
    omega

/-- A table behind a history of calls, by what the finite map says of the history. -/
structure GrownBy (t : OrderIndex) (walked demand inserts : Nat) : Prop where
  /-- No slot before an `insert` asks for one, and then 256 slots and as many doublings as `rehashes()` counts. -/
  capacity : t.capacity = if demand = 0 then 0 else kInitial * 2 ^ t.rehashes
  /-- As many doublings as it takes to keep a quarter free, and no more. -/
  room : 4 * demand ≤ 3 * t.capacity
  least : ∀ r, t.rehashes = r + 1 → 3 * (kInitial * 2 ^ r) < 4 * demand
  /-- All rebuilds together go through the capacity, less the first 256 slots. -/
  rebuilt : demand ≠ 0 → walked + kInitial = t.capacity
  /-- Which is at most eight slots for three calls of `insert`. -/
  linear : 3 * walked ≤ 8 * demand
  demand_le : demand ≤ inserts

/-- **Growth.** After every history of calls. -/
theorem index_growth (cs : List Call) :
    GrownBy (after step {} cs) (walked {} cs) (OrderMap.demand ∅ cs) (cs.countP Call.inserts) := by
  have fits : Doubling.Fits kInitial ((after step {} cs).store (0 + walked {} cs)) (max 0 (OrderMap.demand ∅ cs)) :=
    rep_new.fits_run (Doubling.fits_new kInitial) cs
  rw [Nat.zero_add, Nat.zero_max] at fits
  refine ⟨?_, fits.room, fits.least, fun grown => (fits.grown grown).2, fits.walked_le, ?_⟩
  · by_cases none : OrderMap.demand ∅ cs = 0
    · rw [if_pos none]
      exact (fits.start none).1
    · rw [if_neg none]
      exact (fits.grown none).1
  · exact (demand_le ∅ cs).trans (Nat.zero_add _).le

end Nts.OrderIndex
