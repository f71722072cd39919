import Nts.Lib.Runs
import Nts.Lib.Stores
import Nts.Mold.Mold

/-!
# `Packer` (`mold/packer.h`, `mold/packer.cc`)

The packet buffer and the three calls that write it. A message is its bytes; a
packet is the contents of the returned span at the time of the return. Every reply lists
the stores that were made into the buffer.

Sizes are natural numbers: with `kHeaderSize + max_payload` below 2^64 no sum here wraps, and
`Holds.room` is why the difference `max_payload_ - body_` is never cut off at zero. The buffer, of that size, is
taken to be allocated; what is proved of a packer is proved of one whose constructor returns.
-/

namespace Nts.Mold
open Itch

structure Packer where
  session : Session
  sequence : BitVec 64
  maxPayload : Nat
  buffer : List Byte
  body : Nat := 0
  count : BitVec 16 := 0

namespace Packer

/-- The constructor. -/
def new (session : Session) (firstSequence : BitVec 64) (maxPayload : Nat) : Packer :=
  { session, sequence := firstSequence, maxPayload, buffer := List.replicate (kHeaderSize + maxPayload) 0#8 }

inductive Call where
  | tryAdd (msg : List Byte)
  | finish
  | endOfSession
  deriving DecidableEq, Repr

/-- The answer to a call, and the stores it made. -/
structure Reply where
  accepted : Bool := false
  packet : Option (List Byte) := none
  stores : List (Store Byte) := []

/-- `try_add`. -/
def tryAdd (p : Packer) (msg : List Byte) : Packer × Reply :=
  let room := p.maxPayload - p.body
  if room < 2 ∨ room - 2 < msg.length then (p, {})
  else if p.count = kEndOfSession - 1 then (p, {})
  else
    let block := kHeaderSize + p.body
    let stores : List (Store Byte) :=
      [⟨block, [.ofNat 8 (msg.length >>> 8)]⟩, ⟨block + 1, [.ofNat 8 (msg.length &&& 0xFF)]⟩, ⟨block + 2, msg⟩]
    ({ p with buffer := Store.applyAll p.buffer stores, body := p.body + (2 + msg.length), count := p.count + 1 },
      { accepted := true, stores })

/-- `finish`. -/
def finish (p : Packer) : Packer × Reply :=
  let stores : List (Store Byte) := [⟨0, encodeHeader ⟨p.session, p.sequence, p.count⟩⟩]
  let buffer := Store.applyAll p.buffer stores
  ({ p with buffer, sequence := p.sequence + p.count.setWidth 64, body := 0, count := 0 },
    { packet := some (buffer.take (kHeaderSize + p.body)), stores })

/-- `end_of_session`. -/
def endOfSession (p : Packer) : Packer × Reply :=
  let stores : List (Store Byte) := [⟨0, encodeHeader ⟨p.session, p.sequence, kEndOfSession⟩⟩]
  let buffer := Store.applyAll p.buffer stores
  ({ p with buffer }, { packet := some (buffer.take kHeaderSize), stores })

/-- `next_sequence`. -/
def nextSequence (p : Packer) : BitVec 64 := p.sequence + p.count.setWidth 64

/-- `packet_sequence`. -/
def packetSequence (p : Packer) : BitVec 64 := p.sequence

/-- `empty`. -/
def empty (p : Packer) : Bool := p.count == 0

/-- `too_large`. -/
def tooLarge (p : Packer) (messageSize : Nat) : Bool := decide (2 + messageSize > p.maxPayload)

/-- One call. -/
def step (p : Packer) : Call → Packer × Reply
  | .tryAdd msg => p.tryAdd msg
  | .finish => p.finish
  | .endOfSession => p.endOfSession

/-- A packet that `finish` returned: its sequence, the messages accepted since the `finish` before it, its bytes. -/
structure Packed where
  sequence : BitVec 64
  messages : List (List Byte)
  bytes : List Byte
  deriving DecidableEq, Repr

/-- The packets of a run's `finish` calls, with `pending` accepted before it. -/
def packed : Packer → List (List Byte) → List Call → List Packed
  | _, _, [] => []
  | p, pending, .tryAdd msg :: cs =>
    packed (p.tryAdd msg).1 (if (p.tryAdd msg).2.accepted then pending ++ [msg] else pending) cs
  | p, pending, .finish :: cs => ⟨p.sequence, pending, p.finish.2.packet.getD []⟩ :: packed p.finish.1 [] cs
  | p, pending, .endOfSession :: cs => packed p.endOfSession.1 pending cs

/-- The packets a run returns, in order. -/
def packets (p : Packer) (calls : List Call) : List (List Byte) := (Runs.answers step p calls).filterMap (·.packet)

/-! ## The packet being built -/

/-- The buffer holds the blocks of the pending messages behind room for a header. -/
structure Holds (p : Packer) (pending : List (List Byte)) : Prop where
  size : p.buffer.length = kHeaderSize + p.maxPayload
  blocks : Store.slice p.buffer kHeaderSize p.body = pending.flatMap block
  room : p.body ≤ p.maxPayload
  counted : p.count.toNat = pending.length
  below : pending.length < 0xFFFF
  framed : ∀ m ∈ pending, Framed m

theorem holds_new (session : Session) (firstSequence : BitVec 64) (maxPayload : Nat) :
    (new session firstSequence maxPayload).Holds [] where
  size := List.length_replicate
  blocks := List.take_zero
  room := Nat.zero_le _
  counted := rfl
  below := by decide
  framed := fun _ member => (List.not_mem_nil member).elim

section
variable {p : Packer} {pending : List (List Byte)}

/-- The two length bytes and the message are one block. -/
theorem length_bytes (msg : List Byte) :
    [BitVec.ofNat 8 (msg.length >>> 8)] ++ ([BitVec.ofNat 8 (msg.length &&& 0xFF)] ++ msg) = block msg := by
  have low : msg.length &&& 0xFF = msg.length % 256 := Nat.and_two_pow_sub_one_eq_mod msg.length 8
  have byte : BitVec.ofNat 8 (msg.length % 256) = BitVec.ofNat 8 msg.length := by
    apply BitVec.eq_of_toNat_eq
    rw [BitVec.toNat_ofNat, BitVec.toNat_ofNat, Nat.mod_mod]
  rw [low, byte, Nat.shiftRight_eq_div_pow]
  rfl

/-- `try_add` refuses and changes nothing, or appends the message's block to the packet. -/
theorem Holds.tryAdd (holds : p.Holds pending) {msg : List Byte} (framed : Framed msg) :
    p.tryAdd msg = (p, {}) ∨
    ∃ p' stores, p.tryAdd msg = (p', { accepted := true, stores }) ∧ p'.Holds (pending ++ [msg]) ∧
      p'.session = p.session ∧ p'.sequence = p.sequence ∧ p'.maxPayload = p.maxPayload ∧
      ∀ w ∈ stores, w.Inside (kHeaderSize + p.maxPayload) := by
  unfold Packer.tryAdd
  dsimp only
  split
  · exact Or.inl rfl
  · next fits =>
    split
    · exact Or.inl rfl
    · next countable =>
      right
      refine ⟨_, _, rfl, ?_, rfl, rfl, rfl, ?_⟩
      · have room : p.body + (2 + msg.length) ≤ p.maxPayload := by
          have := holds.room
          omega
        have one : Store.applyAll p.buffer
            [⟨kHeaderSize + p.body, [.ofNat 8 (msg.length >>> 8)]⟩,
              ⟨kHeaderSize + p.body + 1, [.ofNat 8 (msg.length &&& 0xFF)]⟩, ⟨kHeaderSize + p.body + 2, msg⟩] =
            Store.apply p.buffer ⟨kHeaderSize + p.body, block msg⟩ := by
          have size := holds.size
          have second := Store.apply_apply p.buffer (kHeaderSize + p.body)
            [.ofNat 8 (msg.length >>> 8)] [.ofNat 8 (msg.length &&& 0xFF)] (by simp only [List.length_singleton]; omega)
          have third := Store.apply_apply p.buffer (kHeaderSize + p.body)
            [.ofNat 8 (msg.length >>> 8), .ofNat 8 (msg.length &&& 0xFF)] msg
            (by simp only [List.length_cons, List.length_nil]; omega)
          rw [← length_bytes]
          exact (congrArg (Store.apply · _) second).trans third
        have inside : Store.Inside p.buffer.length ⟨kHeaderSize + p.body, block msg⟩ := by
          show kHeaderSize + p.body + (block msg).length ≤ p.buffer.length
          rw [holds.size, length_block]
          omega
        constructor
        · rw [one, Store.length_apply inside]
          exact holds.size
        · dsimp only
          have self := Store.slice_self inside
          dsimp only at self
          rw [length_block] at self
          rw [one, Store.slice_add, Store.slice_before inside (Nat.le_refl _), holds.blocks, self, List.flatMap_append,
            List.flatMap_singleton]
        · exact room
        · have counted := holds.counted
          have below := holds.below
          have notLast : p.count.toNat ≠ 0xFFFE := fun last => countable (BitVec.eq_of_toNat_eq last)
          show (p.count + 1#16).toNat = (pending ++ [msg]).length
          rw [BitVec.toNat_add, counted, BitVec.toNat_ofNat, List.length_append, List.length_singleton]
          omega
        · have counted := holds.counted
          have below := holds.below
          have notLast : p.count.toNat ≠ 0xFFFE := fun last => countable (BitVec.eq_of_toNat_eq last)
          rw [List.length_append, List.length_singleton]
          omega
        · intro m member
          rcases List.mem_append.mp member with old | new
          · exact holds.framed m old
          · rw [List.mem_singleton.mp new]
            exact framed
      · have := holds.room
        intro w member
        simp only [List.mem_cons, List.not_mem_nil, or_false] at member
        rcases member with rfl | rfl | rfl <;> simp only [Store.Inside, List.length_singleton] <;> omega

/-- A header is stored in front of the blocks. -/
theorem Holds.header (holds : p.Holds pending) (h : Header) :
    Store.Inside p.buffer.length ⟨0, encodeHeader h⟩ ∧
    (Store.apply p.buffer ⟨0, encodeHeader h⟩).take kHeaderSize = encodeHeader h ∧
    Store.slice (Store.apply p.buffer ⟨0, encodeHeader h⟩) kHeaderSize p.body = pending.flatMap block := by
  have inside : Store.Inside p.buffer.length ⟨0, encodeHeader h⟩ := by
    show 0 + (encodeHeader h).length ≤ p.buffer.length
    rw [holds.size, length_encodeHeader]
    omega
  refine ⟨inside, ?_, ?_⟩
  · have self := Store.slice_self inside
    dsimp only at self
    rwa [length_encodeHeader] at self
  · have behind : 0 + (encodeHeader h).length ≤ kHeaderSize := by rw [length_encodeHeader, Nat.zero_add]
    rw [Store.slice_after inside behind, holds.blocks]

/-- `finish` returns the packet of the pending messages and starts the next. -/
theorem Holds.finish (holds : p.Holds pending) :
    p.finish.2.packet = some (packetOf p.session p.sequence pending) ∧ p.finish.1.Holds [] ∧
      ∀ w ∈ p.finish.2.stores, w.Inside (kHeaderSize + p.maxPayload) := by
  have count : p.count = .ofNat 16 pending.length := by
    rw [← holds.counted, BitVec.ofNat_toNat, BitVec.setWidth_eq]
  obtain ⟨inside, header, blocks⟩ := holds.header ⟨p.session, p.sequence, p.count⟩
  refine ⟨?_, ⟨?_, List.take_zero, Nat.zero_le _, rfl, by decide, fun _ member => (List.not_mem_nil member).elim⟩, ?_⟩
  · have whole : (Store.apply p.buffer ⟨0, encodeHeader ⟨p.session, p.sequence, p.count⟩⟩).take (kHeaderSize + p.body) =
        packetOf p.session p.sequence pending := by
      rw [List.take_add, header, packetOf, ← count]
      exact congrArg _ blocks
    exact congrArg some whole
  · exact (Store.length_apply inside).trans holds.size
  · intro w member
    rw [List.mem_singleton.mp member, ← holds.size]
    exact inside

/-- `end_of_session` returns a lone header and keeps the packet being built. -/
theorem Holds.endOfSession (holds : p.Holds pending) :
    p.endOfSession.2.packet = some (encodeHeader ⟨p.session, p.sequence, kEndOfSession⟩) ∧
      p.endOfSession.1.Holds pending ∧ ∀ w ∈ p.endOfSession.2.stores, w.Inside (kHeaderSize + p.maxPayload) := by
  obtain ⟨inside, header, blocks⟩ := holds.header ⟨p.session, p.sequence, kEndOfSession⟩
  refine ⟨congrArg some header, ⟨(Store.length_apply inside).trans holds.size, blocks, holds.room, holds.counted,
    holds.below, holds.framed⟩, ?_⟩
  intro w member
  rw [List.mem_singleton.mp member, ← holds.size]
  exact inside

end
end Packer
end Nts.Mold
