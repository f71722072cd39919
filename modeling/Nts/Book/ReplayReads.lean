import Nts.Itch.Blocks
import Nts.Book.Replay

/-!
# What `replay` reads

The dispatch counts a length that disagrees with the table and decodes the
message all the same, so what keeps its reads inside a message's view is the message's
own length. `LongEnough` is that condition, message by message; a walk whose messages
all meet it reads inside its buffer, and depends on nothing else.
-/

namespace Nts.Book
open Reading Itch

/-- One past the last offset that is read of a message of this type. -/
def fieldsEnd : MessageType → Nat
  | .stockDirectory => 25
  | .addOrder | .addOrderMpid => 36
  | .orderExecuted => 31
  | .orderExecutedWithPrice => 36
  | .orderCancel => 23
  | .orderDelete => 19
  | .orderReplace => 35
  | _ => 1

/-- The locate of a message. -/
def locateOf (mem : Memory) (mv : MessageView) : BitVec 16 := (be16 (mv.data + 1)).value mem

/-- The view covers the fields that are read: of a directory message up to the lot size,
of a message that moves a book the header and, if its locate is registered, the type's fields. -/
def LongEnough (mem : Memory) (books : BookSet) (mv : MessageView) : Prop :=
  match MessageType.ofByte (mem mv.data) with
  | none => True
  | some type =>
    if type = .stockDirectory then 25 ≤ mv.size
    else if movesBook type then 11 ≤ mv.size ∧ (books.known (locateOf mem mv) → fieldsEnd type ≤ mv.size)
    else True

/-- The message's effect depends on its own bytes: every read is inside the view, and
memory outside it changes nothing. -/
def OwnBytesOnly (mem : Memory) (books : BookSet) (stats : ReplayStats) (mv : MessageView) : Prop :=
  Within mem (applyMessage books mv stats) mv.data mv.size ∧
    ∀ mem' : Memory, (∀ a, mv.data ≤ a → a < mv.data + mv.size → mem' a = mem a) →
      (applyMessage books mv stats).value mem' = (applyMessage books mv stats).value mem

section
variable {mem : Memory}

theorem within_applyToBook {b : OrderBook} {type : MessageType} {p n : Nat} (here : mem p = type.code)
    (moves : movesBook type) : Within mem (applyToBook b type p) p n ↔ fieldsEnd type ≤ n := by
  cases type <;> first
    | exact absurd moves (by decide)
    | simp only [applyToBook, within_bind, within_pure, and_true, within_decodeAddOrder, within_decodeOrderCancel,
        within_decodeOrderDelete, within_decodeOrderReplace, within_decodeOrderExecuted, here, fieldsEnd]
  all_goals exact Iff.rfl

theorem header_locate (mem : Memory) (mv : MessageView) :
    ((decodeHeader mv.data).value mem).stockLocate = locateOf mem mv := by
  simp only [decodeHeader, value_bind, value_pure]
  rfl

/-- One message: it is read inside its view exactly when it is long enough. -/
theorem within_applyMessage (books : BookSet) (stats : ReplayStats) {mv : MessageView} (nonempty : 1 ≤ mv.size) :
    Within mem (applyMessage books mv stats) mv.data mv.size ↔ LongEnough mem books mv := by
  have first : mv.data ≤ mv.data ∧ mv.data < mv.data + mv.size := by omega
  simp only [applyMessage, LongEnough, within_bind, within_read, first, true_and, value_read]
  cases named : MessageType.ofByte (mem mv.data) with
  | none => simp only [within_pure]
  | some type =>
    dsimp only
    by_cases directory : type = .stockDirectory
    · simp only [directory, if_true, within_bind, within_decodeStockDirectory, within_pure, and_true]
    · simp only [directory, if_false]
      by_cases moves : movesBook type = true
      · simp only [moves, Bool.not_true, Bool.false_eq_true, if_false, if_true, within_bind, within_decodeHeader,
          header_locate]
        apply and_congr_right
        intro _
        by_cases known : books.known (locateOf mem mv) = true
        · have code := (MessageType.code_of_ofByte named).symm
          simp only [known, Bool.not_true, Bool.false_eq_true, if_false, within_bind, within_pure, and_true,
            within_applyToBook code moves, forall_const]
        · simp only [known, Bool.not_false, if_true, within_pure, Bool.false_eq_true, false_imp_iff]
      · simp only [moves, Bool.not_false, Bool.false_eq_true, if_true, if_false, within_pure]

theorem ownBytesOnly_iff (books : BookSet) (stats : ReplayStats) {mv : MessageView} (nonempty : 1 ≤ mv.size) :
    OwnBytesOnly mem books stats mv ↔ LongEnough mem books mv := by
  rw [← within_applyMessage books stats nonempty]
  exact ⟨fun own => own.1, fun inside => ⟨inside, fun mem' agree => (inside.frame agree).1⟩⟩

end

/-! ## The whole buffer -/

/-- The messages of a buffer, each with the books and counters it is applied to. -/
def applications (mem : Memory) (books : BookSet) (data size : Nat) : List ((BookSet × ReplayStats) × MessageView) :=
  visits (fun s mv => (applyMessage s.1 mv s.2).value mem) (books, {}) (Framer.handedOut mem ⟨data, size, 0⟩)

/-- `replay` reads inside the buffer, and each message is read inside its own view. -/
def ReadsInside (mem : Memory) (books : BookSet) (data size : Nat) : Prop :=
  Within mem (replay books data size) data size ∧
    ∀ v ∈ applications mem books data size, OwnBytesOnly mem v.1.1 v.1.2 v.2

/-- **Reads of a replay.** For every buffer and all books: the walk reads inside the
buffer, and every message inside its view, exactly when every message is long
enough for what is read of it. -/
theorem replay_readsInside_iff (mem : Memory) (books : BookSet) (data size : Nat) :
    ReadsInside mem books data size ↔ ∀ v ∈ applications mem books data size, LongEnough mem v.1.1 v.2 := by
  have views : Framer.handedOut mem ⟨data, size, 0⟩ = viewsFrom data (parse (bytesAt mem data size)).1 :=
    Framer.handedOut_eq rfl
  obtain ⟨whole, framed, _⟩ := parse_spec (bytesAt mem data size)
  have sized : ∀ v ∈ applications mem books data size, 1 ≤ v.2.size ∧ data ≤ v.2.data ∧ v.2.data + v.2.size ≤ data + size := by
    intro v visited
    have member := mem_of_visits visited
    rw [views] at member
    have total := congrArg List.length whole
    rw [List.length_append, length_bytesAt] at total
    have inside := viewsFrom_inside member
    have positive := (size_of_viewsFrom framed member).1
    omega
  have each : (∀ v ∈ applications mem books data size, OwnBytesOnly mem v.1.1 v.1.2 v.2) ↔
      ∀ v ∈ applications mem books data size, LongEnough mem v.1.1 v.2 :=
    forall₂_congr fun v visited => ownBytesOnly_iff v.1.1 v.1.2 (sized v visited).1
  rw [ReadsInside, each, and_iff_right_of_imp]
  intro long
  simp only [replay, within_bind, within_pure, and_true]
  refine Framer.forEach_within (f := ⟨data, size, 0⟩) (Nat.zero_le _) fun v visited => ?_
  have visited' : v ∈ applications mem books data size := by
    rw [applications, views]
    exact visited
  obtain ⟨_, low, high⟩ := sized v visited'
  exact ((ownBytesOnly_iff v.1.1 v.1.2 (sized v visited').1).mpr (long v visited')).1.mono low high

/-- A directory message of one byte at the end of a buffer is decoded out of the bytes behind it. -/
theorem short_message_reads_outside : ¬ ∀ (mem : Memory) (books : BookSet) (data size : Nat),
    ReadsInside mem books data size := by
  intro all
  have inside := (all (memoryOf [0#8, 1#8, .ofNat 8 'R'.toNat]) {} 0 3).1
  have outside : 21 ∈ (replay {} 0 3).trace (memoryOf [0#8, 1#8, .ofNat 8 'R'.toNat]) := by decide +kernel
  exact absurd (inside 21 outside).2 (by decide)

end Nts.Book
