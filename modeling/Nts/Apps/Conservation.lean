import Nts.Apps.FeedHandlerReplay
import Nts.Book.OrderBookTotals
import Nts.Book.RefSet

/-!
# Share conservation

The audit measures every message by its own lookups before and after, and the books keep
running totals. `Shares` is the audit in unbounded numbers over the reference table: what it has
added less what it has taken off is what rests, and the audit and the totals are both that number as far as 64
bits go.
-/

namespace Nts.Apps
open Reading Itch Book

/-- The shares a stream adds, executes, cancels and deletes. -/
structure Shares where
  added : Nat := 0
  executed : Nat := 0
  cancelled : Nat := 0
  deleted : Nat := 0

namespace Shares

/-- The shares that left. -/
def gone (n : Shares) : Nat := n.executed + n.cancelled + n.deleted

/-- What a call that a message of a type makes on a reference book adds and takes off. -/
def note (n : Shares) (type : MessageType) (m : RefBook) (call : OrderBook.Call) : Shares :=
  match call with
  | .add _ _ shares _ =>
    if (m.stepReserved call).2 = .applied then { n with added := n.added + shares.toNat } else n
  | .reduce ref _ =>
    let gone := m.sharesOf ref - (m.stepReserved call).1.sharesOf ref
    if type = .orderCancel then { n with cancelled := n.cancelled + gone } else { n with executed := n.executed + gone }
  | .remove ref => { n with deleted := n.deleted + m.sharesOf ref }
  | .replace originalRef _ shares _ =>
    if (m.stepReserved call).2 = .applied then
      { n with deleted := n.deleted + m.sharesOf originalRef, added := n.added + shares.toNat }
    else n

/-- The same for an event. -/
def noteEvent (n : Shares) (type : MessageType) (r : RefSet) : Event → Shares
  | .move locate call => if r.known locate then n.note type (r.book locate) call else n
  | _ => n

/-- One message on the reference table and its audit. -/
def message (mem : Memory) (s : RefSet × Shares) (mv : MessageView) : RefSet × Shares :=
  ((s.1.dispatch mem mv).1,
    match MessageType.ofByte (mem mv.data) with
    | none => s.2
    | some type => s.2.noteEvent type s.1 (eventOf mem mv))

end Shares

/-- What the messages add and take off, from an empty table. -/
def sharesAfter (mem : Memory) (mvs : List MessageView) : Shares := (mvs.foldl (Shares.message mem) ({}, {})).2

/-! ## One call -/

section
variable {m : RefBook} {ref : BitVec 64} {o : Resting}

theorem sharesOf_live (live : m.lookup ref = some o) : m.sharesOf ref = o.qty := by
  rw [RefBook.sharesOf, live]
  rfl

theorem sharesOf_none (dead : m.lookup ref = none) : m.sharesOf ref = 0 := by
  rw [RefBook.sharesOf, dead]
  rfl

/-- A reduction takes off what it asks for, or all there is. -/
theorem sharesOf_reduce (m : RefBook) (ref : BitVec 64) (shares : BitVec 32) :
    (m.stepReserved (.reduce ref shares)).1.sharesOf ref = m.sharesOf ref - shares.toNat := by
  simp only [RefBook.stepReserved, RefBook.step]
  cases live : m.lookup ref with
  | none => rw [sharesOf_none live, Nat.zero_sub]
  | some o =>
    simp only [sharesOf_live live]
    by_cases dies : o.qty ≤ shares.toNat
    · rw [if_pos dies, sharesOf_none (Finmap.lookup_erase ref m), Nat.sub_eq_zero_of_le dies]
    · rw [if_neg dies, sharesOf_live (Finmap.lookup_insert m)]

/-- **Conservation of one call** that gives no order the reference 0. -/
theorem Shares.note_balance (n : Shares) (type : MessageType) (m : RefBook) {call : OrderBook.Call}
    (noZero : RefBook.NoZero call) :
    (m.stepReserved call).1.restingShares + (n.note type m call).gone + n.added =
      m.restingShares + n.gone + (n.note type m call).added := by
  cases call with
  | add ref side shares price =>
    simp only [Shares.note, RefBook.stepReserved_eq noZero, RefBook.step]
    by_cases taken : ref ∈ m
    · simp only [taken, if_true, reduceCtorEq, if_false]
    · simp only [taken, if_true, if_false, (RefBook.adds_insert taken _).restingShares, Shares.gone]
      omega
  | reduce ref shares =>
    have left := sharesOf_reduce m ref shares
    have sums : (m.stepReserved (.reduce ref shares)).1.restingShares + m.sharesOf ref =
        m.restingShares + (m.stepReserved (.reduce ref shares)).1.sharesOf ref := by
      rw [left]
      simp only [RefBook.stepReserved, RefBook.step]
      cases live : m.lookup ref with
      | none => simp only [sharesOf_none live, Nat.zero_sub]
      | some o =>
        simp only [sharesOf_live live]
        rw [(RefBook.adds_erase live).restingShares]
        split
        · omega
        · rw [(RefBook.adds_update m ref _).restingShares]
          dsimp only
          omega
    simp only [Shares.note, Shares.gone]
    split <;> dsimp only <;> omega
  | remove ref =>
    simp only [Shares.note, Shares.gone, RefBook.stepReserved, RefBook.step]
    cases live : m.lookup ref with
    | none =>
      rw [sharesOf_none live]
      dsimp only
      omega
    | some o =>
      rw [sharesOf_live live, (RefBook.adds_erase live).restingShares]
      dsimp only
      omega
  | replace originalRef newRef shares price =>
    simp only [Shares.note, RefBook.stepReserved_eq noZero, RefBook.step]
    cases live : m.lookup originalRef with
    | none => simp only [reduceCtorEq, if_false]
    | some o =>
      by_cases taken : newRef ≠ originalRef ∧ newRef ∈ m
      · simp only [if_pos taken, reduceCtorEq, if_false]
      · have absent : newRef ∉ m.erase originalRef := by
          rw [Finmap.mem_erase]
          rintro ⟨ne, inside⟩
          exact taken ⟨ne, inside⟩
        simp only [if_neg taken, if_true, sharesOf_live live, (RefBook.adds_insert absent _).restingShares,
          (RefBook.adds_erase live).restingShares, Shares.gone]
        omega

end

/-- The audit is the unbounded one, in 64 bits. -/
structure Counts (a : Audit) (n : Shares) : Prop where
  added : a.sharesAdded = .ofNat 64 n.added
  executed : a.sharesExecuted = .ofNat 64 n.executed
  cancelled : a.sharesCancelled = .ofNat 64 n.cancelled
  deleted : a.sharesDeleted = .ofNat 64 n.deleted

theorem counts_tally {a : Audit} {n : Shares} (counts : Counts a n) (r : ApplyResult) : Counts (a.tally r) n := by
  obtain ⟨added, executed, cancelled, deleted⟩ := counts
  cases r <;> exact ⟨added, executed, cancelled, deleted⟩

/-- Widening a quantity that is a number below 2^32. -/
theorem setWidth_eq_ofNat {x : BitVec 32} {n : Nat} (eq : x.toNat = n) : x.setWidth 64 = .ofNat 64 n := by
  rw [← eq]
  bv_omega

/-- The audit of a book that tracks its reference notes what the reference moves. -/
theorem Counts.note {a : Audit} {n : Shares} (counts : Counts a n) {b : OrderBook} {m : RefBook} (tracks : Tracks b m)
    (type : MessageType) (call : OrderBook.Call) (small : ∀ shares ∈ m.inserted call, shares.toNat < 2 ^ 31) :
    Counts (a.note type b call) (n.note type m call) := by
  obtain ⟨tracks', result⟩ := follows_tracks.step tracks call small trivial
  obtain ⟨added, executed, cancelled, deleted⟩ := counts_tally counts (m.stepReserved call).2
  simp only [Audit.note, Shares.note, result]
  cases call with
  | add ref side shares price =>
    dsimp only
    split
    · refine ⟨?_, executed, cancelled, deleted⟩
      rw [added, setWidth_eq_ofNat rfl, BitVec.ofNat_add]
    · exact ⟨added, executed, cancelled, deleted⟩
  | reduce ref shares =>
    have before := tracks.indexes.sharesOf ref
    have behind := tracks'.indexes.sharesOf ref
    have left := sharesOf_reduce m ref shares
    have gone := setWidth_eq_ofNat (x := b.sharesOf ref - (b.step (.reduce ref shares)).1.sharesOf ref)
      (n := m.sharesOf ref - (m.stepReserved (.reduce ref shares)).1.sharesOf ref) (by bv_omega)
    dsimp only
    rw [gone]
    split
    · refine ⟨added, executed, ?_, deleted⟩
      rw [cancelled, BitVec.ofNat_add]
    · refine ⟨added, ?_, cancelled, deleted⟩
      rw [executed, BitVec.ofNat_add]
  | remove ref =>
    have gone := setWidth_eq_ofNat (tracks.indexes.sharesOf ref)
    dsimp only
    have noted : Counts { a with sharesDeleted := a.sharesDeleted + (b.sharesOf ref).setWidth 64 }
        { n with deleted := n.deleted + m.sharesOf ref } := by
      refine ⟨counts.added, counts.executed, counts.cancelled, ?_⟩
      rw [gone, counts.deleted, BitVec.ofNat_add]
    exact counts_tally noted _
  | replace originalRef newRef shares price =>
    have gone := setWidth_eq_ofNat (tracks.indexes.sharesOf originalRef)
    dsimp only
    split
    · refine ⟨?_, executed, cancelled, ?_⟩
      · rw [added, setWidth_eq_ofNat rfl, BitVec.ofNat_add]
      · rw [deleted, gone, BitVec.ofNat_add]
    · exact ⟨added, executed, cancelled, deleted⟩

/-! ## The books together -/

/-- The quantities of all live orders of all books. -/
def liveShares (s : BookSet) : Nat := (s.books.toList.map fun b => OrderBook.quantity b.orders.entries).sum

/-- Writing one element of a list moves a sum over it by the difference. -/
theorem sum_map_set {α : Type} (f : α → Nat) (l : List α) {i : Nat} (a : α) (inside : i < l.length) :
    ((l.set i a).map f).sum + f (l.get ⟨i, inside⟩) = (l.map f).sum + f a := by
  induction l generalizing i with
  | nil => exact absurd inside (Nat.not_lt_zero i)
  | cons x xs ih =>
    cases i with
    | zero =>
      simp only [List.set_cons_zero, List.map_cons, List.sum_cons, List.get_eq_getElem, List.getElem_cons_zero]
      omega
    | succ i =>
      have rest := ih (Nat.lt_of_succ_lt_succ inside)
      simp only [List.set_cons_succ, List.map_cons, List.sum_cons, List.get_eq_getElem, List.getElem_cons_succ] at rest ⊢
      omega

section
variable {s : BookSet} {r : RefSet}

theorem liveShares_onStockDirectory (s : BookSet) (msg : StockDirectory) :
    liveShares (s.onStockDirectory msg) = liveShares s := by
  have books : (s.onStockDirectory msg).books = s.books ∨
      (s.onStockDirectory msg).books = resize s.books (msg.header.stockLocate.toNat + 1) {} := by
    unfold BookSet.onStockDirectory
    dsimp only
    split
    · right
      split <;> rfl
    · left
      split <;> rfl
  rcases books with same | grown
  · rw [liveShares, same, liveShares]
  · have fresh : OrderBook.quantity ({} : OrderBook).orders.entries = 0 := rfl
    rw [liveShares, grown, resize, Array.toList_append, List.map_append, List.sum_append, Array.toList_replicate,
      List.map_replicate, fresh, List.sum_replicate, smul_zero, Nat.add_zero, liveShares]

/-- A change to a registered book moves the sum by what it moves the book. -/
theorem liveShares_setBook (sized : s.Sized) {locate : BitVec 16} (known : s.known locate = true) (b : OrderBook) :
    liveShares (s.setBook locate b) + OrderBook.quantity (s.book locate).orders.entries =
      liveShares s + OrderBook.quantity b.orders.entries := by
  have inside : locate.toNat < s.books.toList.length := by
    have registered := BookSet.lt_of_known known
    rw [sized.knownLocates] at registered
    exact registered
  have here : s.book locate = s.books.toList.get ⟨locate.toNat, inside⟩ := by
    rw [BookSet.book, Array.getD_eq_getD_getElem?, Array.getElem?_eq_getElem inside]
    rfl
  rw [here, liveShares, BookSet.setBook, Array.toList_setIfInBounds]
  exact sum_map_set (fun b => OrderBook.quantity b.orders.entries) s.books.toList b inside

/-- `resting_shares` is the sum of the live quantities, in 64 bits. -/
theorem restingShares_eq (refines : Refines Tracks s r) : s.restingShares = .ofNat 64 (liveShares s) := by
  have each : ∀ b ∈ s.books.toList, b.restingShares = .ofNat 64 (OrderBook.quantity b.orders.entries) := by
    intro b member
    obtain ⟨m, tracks⟩ := refines.mem_books member
    rw [OrderBook.restingShares, tracks.orderShares, tracks.indexes.quantity]
  have sums : ∀ (l : List OrderBook) (n : Nat), (∀ b ∈ l, b.restingShares = .ofNat 64 (OrderBook.quantity b.orders.entries)) →
      l.foldl (fun total b => total + b.restingShares) (.ofNat 64 n) =
        .ofNat 64 (n + (l.map fun b => OrderBook.quantity b.orders.entries).sum) := by
    intro l
    induction l with
    | nil => exact fun n _ => rfl
    | cons b l ih =>
      intro n each
      rw [List.foldl_cons, each b List.mem_cons_self, ← BitVec.ofNat_add, ih _ fun b' later => each b' (List.mem_cons_of_mem _ later),
        List.map_cons, List.sum_cons, Nat.add_assoc]
  have whole := sums s.books.toList 0 each
  rw [Nat.zero_add] at whole
  exact whole

/-- One event on table and reference: the live quantities move by what the reference notes. -/
theorem liveShares_handle (refines : Refines Tracks s r) (n : Shares) (type : MessageType) {e : Event} (small : r.Small e)
    (noZero : ∀ locate call, e = .move locate call → RefBook.NoZero call) :
    liveShares (s.handle e).1 + (n.noteEvent type r e).gone + n.added =
      liveShares s + n.gone + (n.noteEvent type r e).added := by
  cases e with
  | directory msg =>
    simp only [BookSet.handle, liveShares_onStockDirectory]
    rfl
  | move locate call =>
    simp only [BookSet.handle, Shares.noteEvent, refines.known]
    by_cases known : r.known locate = true
    · obtain ⟨tracks, _⟩ := follows_tracks.step (refines.book locate) call (small known) trivial
      have moved := liveShares_setBook refines.sized ((refines.known locate).trans known) ((s.book locate).step call).1
      have balance := n.note_balance type (r.book locate) (noZero locate call rfl)
      rw [← tracks.indexes.quantity, ← (refines.book locate).indexes.quantity] at moved
      simp only [known, if_true]
      omega
    · simp only [known, Bool.false_eq_true, if_false]
  | unknown => rfl
  | quiet => rfl

end

/-! ## Runs -/

/-- The event gives no order the reference 0 or 2^31 shares. -/
def Sane : Event → Prop
  | .move _ call => call.Fits ∧ RefBook.NoZero call
  | _ => True

instance : ∀ e, Decidable (Sane e)
  | .move .. => inferInstanceAs (Decidable (_ ∧ _))
  | .unknown | .directory _ | .quiet => inferInstanceAs (Decidable True)

theorem Sane.small {e : Event} (sane : Sane e) (r : RefSet) : r.Small e := by
  cases e with
  | move locate call => exact fun _ => RefBook.small_of_fits sane.1 _
  | directory msg => trivial
  | unknown => trivial
  | quiet => trivial

/-- The feed handler's books follow the reference table, and its audit the unbounded one. -/
structure Accounted (f : FeedHandler) (s : RefSet × Shares) : Prop where
  sound : f.Sound
  refines : Refines Tracks f.books s.1
  counts : Counts f.audit s.2
  balance : liveShares f.books + s.2.gone = s.2.added

theorem accounted_new : Accounted {} ({}, {}) :=
  ⟨FeedHandler.sound_new, refines_new tracks_new, ⟨rfl, rfl, rfl, rfl⟩, rfl⟩

section
variable {mem : Memory} {f : FeedHandler} {s : RefSet × Shares}

/-- One message. -/
theorem Accounted.round (accounted : Accounted f s) (mv : MessageView) (sane : Sane (eventOf mem mv)) :
    Accounted (FeedHandler.round mem f mv).1 (Shares.message mem s mv) := by
  obtain ⟨sound, refines, counts, balance⟩ := accounted
  obtain ⟨f', value, sound', books, _, _, named, unnamed⟩ := sound.onMessage mem mv
  have here : FeedHandler.round mem f mv = (f', false) := value
  have small := sane.small s.1
  have noZero : ∀ locate call, eventOf mem mv = .move locate call → RefBook.NoZero call := by
    intro locate call event
    rw [event] at sane
    exact sane.2
  obtain ⟨refines', _⟩ := refines.track small
  rw [here]
  refine ⟨sound', ?_, ?_, ?_⟩
  · dsimp only
    rw [books]
    exact refines'
  · simp only [Shares.message]
    cases type : MessageType.ofByte (mem mv.data) with
    | none =>
      rw [unnamed type]
      exact counts
    | some type' =>
      rw [named type' type]
      cases event : eventOf mem mv with
      | move locate call =>
        simp only [FeedHandler.audited, Shares.noteEvent, refines.known]
        by_cases known : s.1.known locate = true
        · rw [if_pos known, if_pos known]
          rw [event] at small
          exact counts.note (refines.book locate) type' call (small known)
        · rw [if_neg known, if_neg known]
          exact counts
      | directory msg => exact counts
      | unknown => exact counts
      | quiet => exact counts
  · simp only [Shares.message, books, BookSet.dispatch]
    cases type : MessageType.ofByte (mem mv.data) with
    | none =>
      simp only [eventOf, type, BookSet.handle]
      exact balance
    | some type' =>
      have moved := liveShares_handle refines s.2 type' small noZero
      dsimp only
      omega

theorem Accounted.rounds (accounted : Accounted f s) (mvs : List MessageView) (sane : ∀ mv ∈ mvs, Sane (eventOf mem mv)) :
    Accounted (Runs.after (FeedHandler.round mem) f mvs) (mvs.foldl (Shares.message mem) s) := by
  induction mvs generalizing f s with
  | nil => exact accounted
  | cons mv mvs ih =>
    exact ih (accounted.round mv (sane mv List.mem_cons_self)) fun mv' later => sane mv' (List.mem_cons_of_mem _ later)

end

/-- The shares are accounted for: the books rest what the audit expects, and as long as the shares ever added stay below
2^64 that is the sum of all live quantities, and no more has left than was added. -/
structure SharesConserved (f : FeedHandler) (added : Nat) : Prop where
  expected : f.books.restingShares = f.audit.expectedResting
  live : added < 2 ^ 64 → f.books.restingShares.toNat = liveShares f.books
  covered : added < 2 ^ 64 → f.audit.sharesAdded.toNat = added ∧
    f.audit.sharesExecuted.toNat + f.audit.sharesCancelled.toNat + f.audit.sharesDeleted.toNat ≤ f.audit.sharesAdded.toNat

theorem Accounted.conserved {f : FeedHandler} {s : RefSet × Shares} (accounted : Accounted f s) :
    SharesConserved f s.2.added := by
  obtain ⟨_, refines, ⟨added, executed, cancelled, deleted⟩, balance⟩ := accounted
  have resting := restingShares_eq refines
  simp only [Shares.gone] at balance
  refine ⟨?_, fun few => ?_, fun few => ?_⟩
  · rw [resting, Audit.expectedResting, added, executed, cancelled, deleted]
    bv_omega
  · rw [resting, BitVec.toNat_ofNat, Nat.mod_eq_of_lt (by omega)]
  · rw [added, executed, cancelled, deleted]
    simp only [BitVec.toNat_ofNat]
    omega

/-- **Share conservation.** Behind every sequence of messages that give no order the reference
0 or 2^31 shares, whatever else they ask for. -/
theorem shares_conserved (mem : Memory) (mvs : List MessageView) (sane : ∀ mv ∈ mvs, Sane (eventOf mem mv)) :
    SharesConserved (Runs.afterUntil (FeedHandler.round mem) {} mvs).1 (sharesAfter mem mvs).added := by
  rw [FeedHandler.sound_new.afterUntil mem]
  exact (accounted_new.rounds mvs sane).conserved

/-- A directory message, an order of 5 shares, and an execution of 7 of them. -/
def clampedExecution : Memory := memoryOf
  ([.ofNat 8 'R'.toNat, 0, 1] ++ List.replicate 36 0#8 ++
    [.ofNat 8 'A'.toNat, 0, 1] ++ List.replicate 15 0#8 ++ [7, .ofNat 8 'B'.toNat, 0, 0, 0, 5] ++ List.replicate 12 0#8 ++
    [.ofNat 8 'E'.toNat, 0, 1] ++ List.replicate 15 0#8 ++ [7, 0, 0, 0, 7] ++ List.replicate 8 0#8)

theorem shares_conserved_clamped : SharesConserved
    (Runs.afterUntil (FeedHandler.round clampedExecution) {} [⟨0, 39⟩, ⟨39, 36⟩, ⟨75, 31⟩]).1
    (sharesAfter clampedExecution [⟨0, 39⟩, ⟨39, 36⟩, ⟨75, 31⟩]).added :=
  shares_conserved clampedExecution [⟨0, 39⟩, ⟨39, 36⟩, ⟨75, 31⟩] (by decide +kernel)

end Nts.Apps
