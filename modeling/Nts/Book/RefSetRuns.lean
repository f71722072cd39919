import Nts.Book.OrderBookChecks
import Nts.Book.Clean

/-!
# Runs of the table against its reference

What a list of messages comes to, read off the naive reference: whether every message is taken, whether books
that saw few messages have room for all counts, whether the check of the whole table passes, and which symbol a locate has.
-/

namespace Nts.Book
open Reading Itch

/-- The symbol an event gives a locate. -/
def Event.lists (locate : BitVec 16) : Event → Option Stock
  | .directory msg => if msg.header.stockLocate = locate then some msg.stock else none
  | _ => none

/-- The symbol the last directory message of a locate gives it. -/
def listed (mem : Memory) (mvs : List MessageView) (locate : BitVec 16) : Option Stock :=
  (mvs.filterMap fun mv => Event.lists locate (eventOf mem mv)).getLast?

/-- The message has a known type and its table length, and the reference applies its call, if it makes one. -/
def RefSet.Takes (mem : Memory) (r : RefSet) (mv : MessageView) : Prop :=
  eventOf mem mv ≠ .unknown ∧ mismatched mem mv = false ∧
    ∀ locate call, eventOf mem mv = .move locate call → (r.dispatch mem mv).2 = some .applied

/-- The event puts no empty order into a book. -/
def Event.Filled : Event → Prop
  | .move _ (.add _ _ shares _) => shares ≠ 0#32
  | .move _ (.replace _ _ shares _) => shares ≠ 0#32
  | _ => True

section
variable {mem : Memory} {s : BookSet} {r : RefSet}

/-- A message counts against the exit code unless the reference takes it. -/
theorem Refines.takes_iff (refines : Refines Tracks s r) (stats : ReplayStats) {mv : MessageView} (small : r.Small (eventOf mem mv)) :
    (stats.record (mismatched mem mv) (eventOf mem mv) (s.dispatch mem mv).2).clean = true ∧
      (stats.record (mismatched mem mv) (eventOf mem mv) (s.dispatch mem mv).2).unknownType = 0 ↔
    (stats.clean = true ∧ stats.unknownType = 0) ∧ RefSet.Takes mem r mv := by
  have unknowns : (stats.record (mismatched mem mv) (eventOf mem mv) (s.dispatch mem mv).2).unknownType = 0 ↔
      stats.unknownType = 0 ∧ eventOf mem mv ≠ .unknown := by
    generalize (s.dispatch mem mv).2 = answer
    cases eventOf mem mv with
    | unknown => cases mismatched mem mv <;> simp [ReplayStats.record]
    | directory msg => cases mismatched mem mv <;> simp [ReplayStats.record]
    | quiet => cases mismatched mem mv <;> simp [ReplayStats.record]
    | move locate call =>
      rcases answer with _ | (_ | _ | _ | _) <;> cases mismatched mem mv <;> simp [ReplayStats.record, tally]
  have answered : (r.dispatch mem mv).2 = (s.dispatch mem mv).2 := (refines.track small).2.symm
  rw [clean_record, unknowns, Noted, RefSet.Takes, answered]
  tauto

/-- The counters behind a run that fail the exit code are those of the messages the reference does not take. -/
theorem Refines.takes_run (refines : Refines Tracks s r) (stats : ReplayStats) (mvs : List MessageView)
    (small : ∀ mv ∈ mvs, ∀ r : RefSet, r.Small (eventOf mem mv)) :
    (applyAll mem (s, stats) mvs).2.clean = true ∧ (applyAll mem (s, stats) mvs).2.unknownType = 0 ↔
      (stats.clean = true ∧ stats.unknownType = 0) ∧ Runs.Admitted (RefSet.dispatch mem) (RefSet.Takes mem) r mvs := by
  induction mvs generalizing s r stats with
  | nil => simp only [applyAll, List.foldl_nil, Runs.Admitted, and_true]
  | cons mv mvs ih =>
    obtain ⟨here, later⟩ := List.forall_mem_cons.mp small
    rw [applyAll, List.foldl_cons, ← applyAll, applyMessage_value]
    have rest := ih (refines.track (here r)).1 (stats.record (mismatched mem mv) (eventOf mem mv) (s.dispatch mem mv).2) later
    rw [refines.takes_iff stats (here r), and_assoc] at rest
    exact rest

/-! ## Few messages, few orders -/

/-- A call makes a book larger by one order at most. -/
theorem RefBook.liveOrders_le (m : RefBook) (c : OrderBook.Call) : (m.stepReserved c).1.liveOrders ≤ m.liveOrders + 1 := by
  rcases m.liveOrders_step c with ⟨ref, side, shares, price, rfl⟩ | less
  · simp only [RefBook.stepReserved, RefBook.step]
    split
    · exact Nat.le_succ _
    · split
      · exact Nat.le_succ _
      · next absent => exact ((RefBook.adds_insert absent _).liveOrders.trans (Nat.add_comm ..)).le
  · exact Nat.le_succ_of_le less

/-- No reference book has more than `n` orders. -/
def RefSet.Few (n : Nat) (r : RefSet) : Prop := ∀ locate, (r.book locate).liveOrders ≤ n

theorem RefSet.Few.handle {n : Nat} (few : r.Few n) (e : Event) : (r.handle e).1.Few (n + 1) := by
  intro locate
  cases e with
  | move locate' call =>
    have one := RefBook.liveOrders_le (r.book locate') call
    have bound := few locate'
    simp only [RefSet.handle]
    split
    · dsimp only
      split
      · omega
      · exact (few locate).trans (Nat.le_succ n)
    · exact (few locate).trans (Nat.le_succ n)
  | directory msg => exact (few locate).trans (Nat.le_succ n)
  | unknown => exact (few locate).trans (Nat.le_succ n)
  | quiet => exact (few locate).trans (Nat.le_succ n)

/-- Fewer than 2^32 messages keep every book within what its counts can hold. -/
theorem Refines.rep_run (refines : Refines Rep s r) {n : Nat} (few : r.Few n) (mvs : List MessageView)
    (room : n + mvs.length < 2 ^ 32) (small : ∀ mv ∈ mvs, ∀ r : RefSet, r.Small (eventOf mem mv)) :
    Refines Rep (Runs.after (BookSet.dispatch mem) s mvs) (Runs.after (RefSet.dispatch mem) r mvs) := by
  induction mvs generalizing s r n with
  | nil => exact refines
  | cons mv mvs ih =>
    obtain ⟨here, later⟩ := List.forall_mem_cons.mp small
    have few' := few.handle (eventOf mem mv)
    rw [List.length_cons] at room
    have ok : ∀ locate, ((r.handle (eventOf mem mv)).1.book locate).liveOrders < 2 ^ 32 := by
      intro locate
      have bound := few' locate
      omega
    exact ih (refines.handle follows_rep _ (here r) ok).1 few' (by omega) later

/-- No order is empty, and 32 bits count the orders of every level. -/
def RefSet.Sound (r : RefSet) : Prop := ∀ locate, (r.book locate).Sound

theorem RefBook.joins_of_few {m : RefBook} {o : Resting} (nonzero : o.qty ≠ 0) (few : m.liveOrders + 1 < 2 ^ 32) : m.Joins o := by
  have level := RefBook.ordersAt_le m o.side o.price
  exact ⟨nonzero, by omega⟩

theorem RefSet.Sound.handle {n : Nat} (sound : r.Sound) (few : r.Few n) (room : n + 1 < 2 ^ 32) {e : Event} (filled : e.Filled) :
    (r.handle e).1.Sound := by
  cases e with
  | move locate call =>
    simp only [RefSet.handle]
    split
    · intro other
      dsimp only
      split
      · have bound := few locate
        apply (sound locate).step
        cases call with
        | add ref side shares price =>
          intro _ _
          refine RefBook.joins_of_few ?_ (by omega)
          exact fun zero => filled (BitVec.eq_of_toNat_eq zero)
        | replace originalRef newRef shares price =>
          intro o live _ _
          have erased := (RefBook.adds_erase live).liveOrders
          refine RefBook.joins_of_few ?_ (by omega)
          exact fun zero => filled (BitVec.eq_of_toNat_eq zero)
        | reduce ref shares => trivial
        | remove ref => trivial
      · exact sound other
    · exact sound
  | directory msg => exact sound
  | unknown => exact sound
  | quiet => exact sound

theorem RefSet.Sound.run {n : Nat} (sound : r.Sound) (few : r.Few n) (mvs : List MessageView)
    (room : n + mvs.length < 2 ^ 32) (filled : ∀ mv ∈ mvs, Event.Filled (eventOf mem mv)) :
    (Runs.after (RefSet.dispatch mem) r mvs).Sound := by
  induction mvs generalizing r n with
  | nil => exact sound
  | cons mv mvs ih =>
    obtain ⟨here, later⟩ := List.forall_mem_cons.mp filled
    rw [List.length_cons] at room
    exact ih (sound.handle few (by omega) here) (few.handle _) (by omega) later

/-- Books that show sound orders pass the check. -/
theorem Refines.checkInvariants (refines : Refines Rep s r) (sound : r.Sound) : s.checkInvariants = true := by
  rw [BookSet.checkInvariants, if_neg (by simp only [refines.sized.knownLocates, refines.sized.symbols, ne_eq, not_true, or_self,
    not_false_eq_true]), List.all_eq_true]
  intro i inside
  rw [List.mem_range] at inside
  have bounded := refines.sized.bounded
  have locate : (BitVec.ofNat 16 i).toNat = i := by
    rw [BitVec.toNat_ofNat, Nat.mod_eq_of_lt (by omega)]
  have shown := (refines.book (.ofNat 16 i)).toShows
  have passes := shown.checkInvariants_iff.mpr (shown.full (sound _))
  rw [BookSet.book, locate] at passes
  rw [passes, Bool.not_true, Bool.and_false, Bool.not_false]

/-! ## Symbols -/

/-- A registered locate has the symbol of its last directory message. -/
theorem symbol_run (sized : s.Sized) (mvs : List MessageView) (locate : BitVec 16) :
    (Runs.after (BookSet.dispatch mem) s mvs).known locate = ((listed mem mvs locate).isSome || s.known locate) ∧
    (Runs.after (BookSet.dispatch mem) s mvs).symbol locate = (listed mem mvs locate).getD (s.symbol locate) := by
  induction mvs generalizing s with
  | nil => exact ⟨rfl, rfl⟩
  | cons mv mvs ih =>
    have first : ((s.dispatch mem mv).1.known locate = ((Event.lists locate (eventOf mem mv)).isSome || s.known locate)) ∧
        (s.dispatch mem mv).1.symbol locate = (Event.lists locate (eventOf mem mv)).getD (s.symbol locate) := by
      rw [BookSet.dispatch]
      cases eventOf mem mv with
      | directory msg =>
        simp only [BookSet.handle, BookSet.known_onStockDirectory sized, BookSet.symbol_onStockDirectory sized, Event.lists]
        split
        · next here => exact ⟨by rw [decide_eq_true here]; rfl, rfl⟩
        · next other => exact ⟨by rw [decide_eq_false other]; rfl, rfl⟩
      | move locate' call =>
        simp only [BookSet.handle]
        split
        · exact ⟨rfl, rfl⟩
        · exact ⟨rfl, rfl⟩
      | unknown => exact ⟨rfl, rfl⟩
      | quiet => exact ⟨rfl, rfl⟩
    have sized' : (s.dispatch mem mv).1.Sized := BookSet.sized_handle sized (eventOf mem mv)
    obtain ⟨known, symbol⟩ := ih sized'
    rw [Runs.after_cons, known, symbol, first.1, first.2, listed, listed]
    cases lists : Event.lists locate (eventOf mem mv) with
    | none =>
      simp only [List.filterMap_cons, lists]
      exact ⟨rfl, rfl⟩
    | some stock =>
      simp only [List.filterMap_cons, lists, List.getLast?_cons]
      cases (mvs.filterMap fun mv => Event.lists locate (eventOf mem mv)).getLast? with
      | none => exact ⟨rfl, rfl⟩
      | some last => exact ⟨rfl, rfl⟩

end

end Nts.Book
