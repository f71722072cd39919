import Nts.Book.ReplayReads

/-!
# Replay as a machine of events

A message is an event for the table of books: a directory entry, a call on one
book, or nothing. `applyMessage_value` splits the dispatch into what the bytes say
(`eventOf`), what the books do (`BookSet.handle`) and what the counters note
(`ReplayStats.record`).
-/

namespace Nts.Book
open Reading Itch

/-- What a message asks of the books. -/
inductive Event where
  | unknown
  | directory (msg : StockDirectory)
  | quiet
  | move (locate : BitVec 16) (call : OrderBook.Call)
  deriving DecidableEq, Repr

/-- The call a message of a type makes on its book. -/
def callOf (mem : Memory) (p : Nat) : MessageType → Option OrderBook.Call
  | .addOrder | .addOrderMpid =>
    let m := (decodeAddOrder p).value mem
    some (.add m.orderRef (toSide m.side) m.shares m.price)
  | .orderExecuted | .orderExecutedWithPrice =>
    let m := (decodeOrderExecuted p).value mem
    some (.reduce m.orderRef m.executedShares)
  | .orderCancel =>
    let m := (decodeOrderCancel p).value mem
    some (.reduce m.orderRef m.cancelledShares)
  | .orderDelete =>
    let m := (decodeOrderDelete p).value mem
    some (.remove m.orderRef)
  | .orderReplace =>
    let m := (decodeOrderReplace p).value mem
    some (.replace m.originalOrderRef m.newOrderRef m.shares m.price)
  | _ => none

/-- The event of a type's message. -/
def eventOfType (mem : Memory) (mv : MessageView) (type : MessageType) : Event :=
  if type = .stockDirectory then .directory ((decodeStockDirectory mv.data).value mem)
  else match callOf mem mv.data type with
    | none => .quiet
    | some call => .move (locateOf mem mv) call

/-- The event of a message. -/
def eventOf (mem : Memory) (mv : MessageView) : Event :=
  match MessageType.ofByte (mem mv.data) with
  | none => .unknown
  | some type => eventOfType mem mv type

/-- The message's type is known and its length is not the table's. -/
def mismatched (mem : Memory) (mv : MessageView) : Bool :=
  match MessageType.ofByte (mem mv.data) with
  | none => false
  | some type => type.expectedLength != mv.size

/-- One event on the books; the result of the call, if it came to a call. -/
def BookSet.handle (s : BookSet) : Event → BookSet × Option ApplyResult
  | .directory msg => (s.onStockDirectory msg, none)
  | .move locate call =>
    if s.known locate then (s.setBook locate ((s.book locate).step call).1, some ((s.book locate).step call).2)
    else (s, none)
  | _ => (s, none)

/-- What the counters note of a message. -/
def ReplayStats.record (stats : ReplayStats) (mismatched : Bool) (e : Event) (result : Option ApplyResult) : ReplayStats :=
  let stats := { stats with messages := stats.messages + 1 }
  let stats := if mismatched then { stats with lengthMismatch := stats.lengthMismatch + 1 } else stats
  match e, result with
  | .unknown, _ => { stats with unknownType := stats.unknownType + 1 }
  | .move .., none => { stats with unknownLocate := stats.unknownLocate + 1 }
  | .move .., some r => tally stats r
  | _, _ => stats

/-- A message on the books alone. -/
def BookSet.dispatch (mem : Memory) (s : BookSet) (mv : MessageView) : BookSet × Option ApplyResult :=
  s.handle (eventOf mem mv)

/-- `apply_message` over a list of messages. -/
def applyAll (mem : Memory) (s : BookSet × ReplayStats) (mvs : List MessageView) : BookSet × ReplayStats :=
  mvs.foldl (fun s mv => (applyMessage s.1 mv s.2).value mem) s

section
variable {mem : Memory}

theorem callOf_isSome (mem : Memory) (p : Nat) (type : MessageType) : (callOf mem p type).isSome = movesBook type := by
  cases type <;> rfl

/-- A message that moves a book makes one call on it. -/
theorem applyToBook_value (b : OrderBook) (type : MessageType) (p : Nat) : (applyToBook b type p).value mem =
    match callOf mem p type with
    | none => (b, none)
    | some call => ((b.step call).1, some (b.step call).2) := by
  cases type <;> simp only [applyToBook, value_bind, value_pure] <;> rfl

/-- **The dispatch.** -/
theorem applyMessage_value (books : BookSet) (mv : MessageView) (stats : ReplayStats) :
    (applyMessage books mv stats).value mem = ((books.dispatch mem mv).1,
      stats.record (mismatched mem mv) (eventOf mem mv) (books.dispatch mem mv).2) := by
  simp only [applyMessage, BookSet.dispatch, value_bind, value_read, eventOf, mismatched]
  cases MessageType.ofByte (mem mv.data) with
  | none => rfl
  | some type =>
    dsimp only
    have counted : (if type.expectedLength ≠ mv.size then
        { stats with messages := stats.messages + 1, lengthMismatch := stats.lengthMismatch + 1 }
        else { stats with messages := stats.messages + 1 }) =
        (if (type.expectedLength != mv.size) = true then
        { stats with messages := stats.messages + 1, lengthMismatch := stats.lengthMismatch + 1 }
        else { stats with messages := stats.messages + 1 }) := by
      simp only [bne_iff_ne]
    by_cases directory : type = .stockDirectory
    · subst directory
      simp only [eventOfType, if_true, value_bind, value_pure, BookSet.handle, ReplayStats.record, counted]
    · have moves := callOf_isSome mem mv.data type
      simp only [eventOfType, directory, if_false]
      cases called : callOf mem mv.data type with
      | none =>
        rw [called] at moves
        simp only [← moves, Option.isSome_none, Bool.not_false, if_true, value_pure, BookSet.handle,
          ReplayStats.record, counted]
      | some call =>
        rw [called] at moves
        simp only [← moves, Option.isSome_some, Bool.not_true, Bool.false_eq_true, if_false, value_bind,
          header_locate, BookSet.handle]
        by_cases known : books.known (locateOf mem mv) = true
        · simp only [known, Bool.not_true, Bool.false_eq_true, if_false, if_true, value_bind, value_pure,
            applyToBook_value, called, ReplayStats.record, counted]
        · simp only [known, Bool.not_false, Bool.false_eq_true, if_true, if_false, value_pure,
            ReplayStats.record, counted]

/-- The books of a run do not depend on the counters. -/
theorem applyAll_books (s : BookSet × ReplayStats) (mvs : List MessageView) :
    (applyAll mem s mvs).1 = Runs.after (BookSet.dispatch mem) s.1 mvs := by
  induction mvs generalizing s with
  | nil => rfl
  | cons mv mvs ih =>
    have step := @applyMessage_value mem s.1 mv s.2
    rw [Runs.after_cons, ← congrArg Prod.fst step]
    exact ih _

theorem replay_value (books : BookSet) (data size : Nat) :
    (replay books data size).value mem = applyAll mem (books, {}) (Framer.handedOut mem ⟨data, size, 0⟩) := by
  have start : (⟨data, size, 0⟩ : Framer).pos = 0 := rfl
  simp only [replay, value_bind, value_pure]
  rw [Framer.walk_value _ _ start, Framer.handedOut_eq start]
  rfl

/-! ## What a message depends on -/

variable {mem' : Memory} {mv mv' : MessageView}

/-- Views of the same bytes have the same length and agree byte for byte. -/
theorem bytes_agree (same : mv'.bytes mem' = mv.bytes mem) :
    mv'.size = mv.size ∧ ∀ i < mv.size, mem' (mv'.data + i) = mem (mv.data + i) := by
  have length := congrArg List.length same
  simp only [MessageView.bytes, length_bytesAt] at length
  refine ⟨length, fun i less => ?_⟩
  have byte := congrArg (fun bytes => bytes[i]?) same
  simpa [MessageView.bytes, bytesAt, length, less] using byte

/-- A message's call depends on the fields that are read, wherever they lie. -/
theorem callOf_moved {p p' n : Nat} {type : MessageType} (here : mem p = type.code) (long : fieldsEnd type ≤ n)
    (agree : ∀ i < n, mem' (p' + i) = mem (p + i)) : callOf mem' p' type = callOf mem p type := by
  cases type with
  | addOrder => simp only [callOf, movable_decodeAddOrder.value_eq (within_decodeAddOrder.mpr long) agree]
  | addOrderMpid => simp only [callOf, movable_decodeAddOrder.value_eq (within_decodeAddOrder.mpr long) agree]
  | orderExecuted =>
    have inside : Within (seenFrom p mem) (decodeOrderExecuted 0) 0 n := by
      rw [within_decodeOrderExecuted, seenFrom, Nat.add_zero, here, if_neg (by decide)]
      exact long
    simp only [callOf, movable_decodeOrderExecuted.value_eq inside agree]
  | orderExecutedWithPrice =>
    have inside : Within (seenFrom p mem) (decodeOrderExecuted 0) 0 n := by
      rw [within_decodeOrderExecuted, seenFrom, Nat.add_zero, here, if_pos rfl]
      exact long
    simp only [callOf, movable_decodeOrderExecuted.value_eq inside agree]
  | orderCancel => simp only [callOf, movable_decodeOrderCancel.value_eq (within_decodeOrderCancel.mpr long) agree]
  | orderDelete => simp only [callOf, movable_decodeOrderDelete.value_eq (within_decodeOrderDelete.mpr long) agree]
  | orderReplace => simp only [callOf, movable_decodeOrderReplace.value_eq (within_decodeOrderReplace.mpr long) agree]
  | _ => rfl

theorem fieldsEnd_le (type : MessageType) : fieldsEnd type ≤ type.expectedLength ∧ 11 ≤ type.expectedLength := by
  cases type <;> decide

/-- A message of its table length is the same event wherever its bytes lie. -/
theorem eventOf_moved (same : mv'.bytes mem' = mv.bytes mem) (nonempty : 1 ≤ mv.size) (tabled : mismatched mem mv = false) :
    eventOf mem' mv' = eventOf mem mv ∧ mismatched mem' mv' = mismatched mem mv := by
  obtain ⟨size, agree⟩ := bytes_agree same
  have first : mem' mv'.data = mem mv.data := agree 0 nonempty
  unfold eventOf mismatched at *
  rw [first, size]
  cases named : MessageType.ofByte (mem mv.data) with
  | none => exact ⟨rfl, rfl⟩
  | some type =>
    rw [named] at tabled
    have length : type.expectedLength = mv.size := by simpa using tabled
    obtain ⟨fields, header⟩ := fieldsEnd_le type
    refine ⟨?_, rfl⟩
    dsimp only
    unfold eventOfType
    by_cases directory : type = .stockDirectory
    · subst directory
      rw [if_pos rfl, if_pos rfl, movable_decodeStockDirectory.value_eq (within_decodeStockDirectory.mpr (by
        rw [← length]
        decide)) agree]
    · have locate : locateOf mem' mv' = locateOf mem mv := by
        rw [← header_locate, ← header_locate, movable_decodeHeader.value_eq (within_decodeHeader.mpr (by omega)) agree]
      rw [if_neg directory, if_neg directory, locate,
        callOf_moved (MessageType.code_of_ofByte named).symm (by omega) agree]

/-- Lists of messages with the same bytes do the same, if they have their table lengths. -/
theorem applyAll_moved {mvs mvs' : List MessageView} (s : BookSet × ReplayStats)
    (same : mvs'.map (MessageView.bytes mem') = mvs.map (MessageView.bytes mem))
    (tabled : ∀ mv ∈ mvs, 1 ≤ mv.size ∧ mismatched mem mv = false) : applyAll mem' s mvs' = applyAll mem s mvs := by
  induction mvs generalizing mvs' s with
  | nil =>
    obtain rfl := List.map_eq_nil_iff.mp same
    rfl
  | cons mv mvs ih =>
    obtain ⟨mv', later', rfl, first, rest⟩ := List.map_eq_cons_iff.mp same
    obtain ⟨nonempty, length⟩ := tabled mv List.mem_cons_self
    obtain ⟨event, mismatch⟩ := eventOf_moved first nonempty length
    have here : (applyMessage s.1 mv' s.2).value mem' = (applyMessage s.1 mv s.2).value mem := by
      rw [applyMessage_value, applyMessage_value, BookSet.dispatch, BookSet.dispatch, event, mismatch]
    rw [applyAll, List.foldl_cons, here, applyAll, List.foldl_cons]
    exact ih _ rest fun mv later => tabled mv (List.mem_cons_of_mem _ later)

end
end Nts.Book
