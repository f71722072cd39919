import Nts.Itch.Layout
import Nts.Book.RefSetRuns

/-!
# What a file means

A file of messages of known types and their table lengths stands for one list of messages (`FileMeans.files`), and `replay`
does to the books what the messages say field by field, as far as a reference can tell. No byte, offset or length is left in `perform`.
-/

namespace Nts.Book
open Reading Itch

/-- What a decoded message asks of the books. -/
def asked (locate : BitVec 16) : Record → Event
  | .stockDirectory msg => .directory msg
  | .addOrder msg => .move locate (.add msg.orderRef (toSide msg.side) msg.shares msg.price)
  | .orderExecuted msg => .move locate (.reduce msg.orderRef msg.executedShares)
  | .orderCancel msg => .move locate (.reduce msg.orderRef msg.cancelledShares)
  | .orderDelete msg => .move locate (.remove msg.orderRef)
  | .orderReplace msg => .move locate (.replace msg.originalOrderRef msg.newOrderRef msg.shares msg.price)
  | .systemEvent _ | .trade _ | .header _ => .quiet

/-- What a message asks of the books. -/
def meant (m : WireMessage) : Event := asked m.header.1 m.record

/-- A message on books and counters. -/
def perform (s : BookSet × ReplayStats) (m : WireMessage) : BookSet × ReplayStats :=
  ((s.1.handle (meant m)).1, s.2.record false (meant m) (s.1.handle (meant m)).2)

/-- The file of some messages. -/
def fileOf (ms : List WireMessage) : List Byte := ms.flatMap fun m => block m.encode

section
variable {mem : Memory}

/-- The event of a type's message is in its record. -/
theorem eventOfType_eq (mem : Memory) (mv : MessageView) (type : MessageType) :
    eventOfType mem mv type = asked (locateOf mem mv) ((decode type mv.data).value mem) := by
  cases type <;> simp only [eventOfType, callOf, decode, value_bind, value_pure, asked, reduceCtorEq, if_true, if_false]

theorem asked_ne_unknown (locate : BitVec 16) (record : Record) : asked locate record ≠ .unknown := by
  cases record <;> exact Event.noConfusion

/-- A view of an encoded message is the event the message means. -/
theorem eventOf_encode {mv : MessageView} {m : WireMessage} (here : mv.bytes mem = m.encode) :
    eventOf mem mv = meant m ∧ mismatched mem mv = false := by
  have size : mv.size = m.type.expectedLength := by
    rw [← m.length_encode, ← here, MessageView.bytes, length_bytesAt]
  rw [MessageView.bytes, size] at here
  obtain ⟨code, found⟩ := WireMessage.reads here
  have named : MessageType.ofByte (mem mv.data) = some m.type := code ▸ m.type.ofByte_code
  have locate : locateOf mem mv = m.header.1 := by
    rw [← header_locate, value_decodeHeader, congrArg WireMessage.header found]
    rfl
  simp only [eventOf, mismatched, named, size, bne_self_eq_false, and_true]
  rw [eventOfType_eq, locate, value_decode m.type code, ← found, meant]

/-- A view of a known type's message of its table length shows one message. -/
theorem exists_encode {mv : MessageView} (nonempty : 1 ≤ mv.size) (known : eventOf mem mv ≠ .unknown) (tabled : mismatched mem mv = false) :
    ∃ m : WireMessage, m.encode = mv.bytes mem := by
  rw [WireMessage.exists_encode_iff]
  cases named : MessageType.ofByte (mem mv.data) with
  | none =>
    rw [eventOf, named] at known
    exact absurd rfl known
  | some type =>
    rw [mismatched, named] at tabled
    refine ⟨type, ?_, ?_⟩
    · obtain ⟨n, size⟩ : ∃ n, mv.size = n + 1 := ⟨mv.size - 1, by omega⟩
      rw [MessageView.bytes, size, bytesAt_succ, List.head?_cons, MessageType.code_of_ofByte named]
    · rw [MessageView.bytes, length_bytesAt]
      exact (by simpa using tabled : type.expectedLength = mv.size).symm

/-- Views that show a message each show a list of messages. -/
theorem exists_messages {mvs : List MessageView} (each : ∀ mv ∈ mvs, ∃ m : WireMessage, m.encode = mv.bytes mem) :
    ∃ ms : List WireMessage, mvs.map (MessageView.bytes mem) = ms.map WireMessage.encode := by
  induction mvs with
  | nil => exact ⟨[], rfl⟩
  | cons mv mvs ih =>
    obtain ⟨⟨m, first⟩, later⟩ := List.forall_mem_cons.mp each
    obtain ⟨ms, rest⟩ := ih later
    exact ⟨m :: ms, by rw [List.map_cons, List.map_cons, first, rest]⟩

theorem framed_encode (m : WireMessage) : Framed m.encode := by
  rw [Framed, m.length_encode]
  cases m.type <;> decide

theorem fileOf_eq (ms : List WireMessage) : fileOf ms = (ms.map WireMessage.encode).flatMap block := by
  rw [fileOf, List.flatMap_map]

theorem parse_fileOf (ms : List WireMessage) : parse (fileOf ms) = (ms.map WireMessage.encode, []) := by
  rw [fileOf_eq]
  apply parse_blocks
  intro bytes member
  obtain ⟨m, _, rfl⟩ := List.mem_map.mp member
  exact framed_encode m

theorem fileOf_injective : Function.Injective fileOf := by
  intro ms ms' same
  have parsed := parse_fileOf ms
  rw [same, parse_fileOf ms'] at parsed
  exact List.map_injective_iff.mpr WireMessage.encode_injective (congrArg Prod.fst parsed).symm

/-- Views that show some messages do what the messages mean. -/
theorem applyAll_encode {mvs : List MessageView} {ms : List WireMessage}
    (shown : mvs.map (MessageView.bytes mem) = ms.map WireMessage.encode) (s : BookSet × ReplayStats) :
    applyAll mem s mvs = ms.foldl perform s := by
  induction ms generalizing mvs s with
  | nil =>
    obtain rfl := List.map_eq_nil_iff.mp shown
    rfl
  | cons m ms ih =>
    obtain ⟨mv, later, rfl, first, rest⟩ := List.map_eq_cons_iff.mp shown
    obtain ⟨event, tabled⟩ := eventOf_encode first
    rw [applyAll, List.foldl_cons, ← applyAll, applyMessage_value, BookSet.dispatch, event, tabled, ih rest]
    rfl

theorem map_eventOf {mvs : List MessageView} {ms : List WireMessage}
    (shown : mvs.map (MessageView.bytes mem) = ms.map WireMessage.encode) : mvs.map (eventOf mem) = ms.map meant := by
  induction ms generalizing mvs with
  | nil =>
    obtain rfl := List.map_eq_nil_iff.mp shown
    rfl
  | cons m ms ih =>
    obtain ⟨mv, later, rfl, first, rest⟩ := List.map_eq_cons_iff.mp shown
    rw [List.map_cons, List.map_cons, (eventOf_encode first).1, ih rest]

/-- The reference behind some messages is the reference behind their events. -/
theorem after_dispatch (r : RefSet) (mvs : List MessageView) : Runs.after (RefSet.dispatch mem) r mvs =
    (mvs.map (eventOf mem)).foldl (fun r e => (r.handle e).1) r := by
  induction mvs generalizing r with
  | nil => rfl
  | cons mv mvs ih => exact ih _

end

/-- What a buffer means as a file. -/
structure FileMeans (mem : Memory) (data size : Nat) : Prop where
  /-- It is the file of one list of messages exactly when its framing is exhausted by messages of known types and their
  table lengths. -/
  files : (∃! ms, bytesAt mem data size = fileOf ms) ↔ (framing mem data size).exhausted = true ∧
    ∀ mv ∈ Framer.handedOut mem ⟨data, size, 0⟩, eventOf mem mv ≠ .unknown ∧ mismatched mem mv = false
  /-- `replay` performs the messages, on any books. -/
  replays : ∀ ms, bytesAt mem data size = fileOf ms → ∀ books,
    (replay books data size).value mem = ms.foldl perform (books, {})
  /-- Fewer than 2^32 messages with quantities below 2^31 leave the books that the naive reference has behind them. -/
  refines : ∀ ms, bytesAt mem data size = fileOf ms → ms.length < 2 ^ 32 →
    (∀ m ∈ ms, ∀ locate call, meant m = .move locate call → call.Fits) →
      Refines Rep ((replay {} data size).value mem).1 (ms.foldl (fun r m => (r.handle (meant m)).1) {})

/-- **What a file means.** -/
theorem file_means (mem : Memory) (data size : Nat) : FileMeans mem data size := by
  have start : (⟨data, size, 0⟩ : Framer).pos = 0 := rfl
  obtain ⟨whole, framed, _⟩ := parse_spec (bytesAt mem data size)
  have views : Framer.handedOut mem ⟨data, size, 0⟩ = viewsFrom data (parse (bytesAt mem data size)).1 :=
    Framer.handedOut_eq rfl
  have shown := viewsFrom_bytes whole.symm
  rw [← views] at shown
  have messages : ∀ ms, bytesAt mem data size = fileOf ms →
      (Framer.handedOut mem ⟨data, size, 0⟩).map (MessageView.bytes mem) = ms.map WireMessage.encode := by
    intro ms file
    rw [shown, file, parse_fileOf]
  refine ⟨?_, ?_, ?_⟩
  · rw [framing, Framer.walk_exhausted _ _ start]
    constructor
    · rintro ⟨ms, file, _⟩
      refine ⟨by rw [file, parse_fileOf], fun mv member => ?_⟩
      have inside : mv.bytes mem ∈ ms.map WireMessage.encode := by
        rw [← messages ms file]
        exact List.mem_map_of_mem member
      obtain ⟨m, _, encoded⟩ := List.mem_map.mp inside
      obtain ⟨event, tabled⟩ := eventOf_encode encoded.symm
      exact ⟨event ▸ asked_ne_unknown _ _, tabled⟩
    · rintro ⟨nothing, each⟩
      obtain ⟨ms, encoded⟩ := exists_messages fun mv (member : mv ∈ Framer.handedOut mem ⟨data, size, 0⟩) =>
        exists_encode (size_of_viewsFrom framed (views ▸ member)).1 (each mv member).1 (each mv member).2
      have file : bytesAt mem data size = fileOf ms := by
        dsimp only at nothing
        rw [nothing, List.append_nil] at whole
        rw [fileOf_eq, ← encoded, shown, whole]
      exact ⟨ms, file, fun ms' file' => fileOf_injective (file'.symm.trans file)⟩
  · intro ms file books
    rw [replay_value, applyAll_encode (messages ms file)]
  · intro ms file few fits
    have events := map_eventOf (messages ms file)
    have length := congrArg List.length events
    rw [List.length_map, List.length_map] at length
    rw [replay_value, applyAll_books]
    have initially : RefSet.Few 0 {} := fun _ => le_refl 0
    have small : ∀ mv ∈ Framer.handedOut mem ⟨data, size, 0⟩, ∀ r : RefSet, r.Small (eventOf mem mv) := by
      intro mv member r
      have inside : eventOf mem mv ∈ ms.map meant := events ▸ List.mem_map_of_mem member
      obtain ⟨m, here, event⟩ := List.mem_map.mp inside
      rw [← event]
      cases moves : meant m with
      | move locate call => exact fun _ => RefBook.small_of_fits (fits m here locate call moves) _
      | directory msg => trivial
      | unknown => trivial
      | quiet => trivial
    have refines := (refines_new rep_new).rep_run initially (Framer.handedOut mem ⟨data, size, 0⟩) (by omega) small
    rw [after_dispatch, events, List.foldl_map] at refines
    exact refines

end Nts.Book
