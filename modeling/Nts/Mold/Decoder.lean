import Nts.Lib.Runs
import Nts.Mold.Mold

/-!
# `Decoder` (`mold/decoder.h`, `mold/decoder.cc`)

The header check, the sequence bookkeeping and the double walk over a packet.
Definitions only, in the source's order. A call returns what it reports besides the new
state: the gaps it notes and the calls it makes to the sink.

`malformed_`, `applied_` and the other counters that grow by one with a packet are natural
numbers: none can reach 2^64. Sequences and the sums of message counts have the width of
the source.
-/

namespace Nts.Mold
open Reading Itch

/-- `PacketView`: one received datagram. -/
structure PacketView where
  data : Nat
  len : Nat
  rxTsc : BitVec 64

/-- `Gap`. -/
structure Gap where
  firstMissing : BitVec 64
  count : BitVec 64
  deriving DecidableEq, Repr

/-- `Session{}`. -/
def noSession : Session := ⟨List.replicate kSessionSize 0#8, List.length_replicate⟩

structure Decoder where
  expected : BitVec 64 := 1
  lastSequence : BitVec 64 := 0
  started : Bool := false
  eos : Bool := false
  session : Session := noSession
  sessionChanges : Nat := 0
  applied : Nat := 0
  messages : BitVec 64 := 0
  duplicates : Nat := 0
  malformed : Nat := 0
  heartbeats : Nat := 0
  gapsTotal : Nat := 0
  gapMessages : BitVec 64 := 0
  gaps : List Gap := []
  deriving DecidableEq, Repr

/-- What a call reports: the gaps it notes, and the arguments of its calls to the sink. -/
structure Report where
  noted : List Gap := []
  sunk : List (MessageView × BitVec 64) := []

namespace Decoder

def kMaxGaps : Nat := 4096

/-- `note_gap`. -/
def noteGap (d : Decoder) (first count : BitVec 64) : Decoder :=
  let d := { d with gapsTotal := d.gapsTotal + 1, gapMessages := d.gapMessages + count }
  if d.gaps.length < kMaxGaps then { d with gaps := d.gaps ++ [⟨first, count⟩] } else d

/-- The session rule of `on_packet`. -/
def adopt (d : Decoder) (h : Header) : Decoder :=
  if !d.started then { d with session := h.session, expected := h.sequence, started := true }
  else if h.session ≠ d.session then
    { d with sessionChanges := d.sessionChanges + 1, session := h.session, expected := h.sequence }
  else d

/-- `if (h.sequence > expected_) note_gap(expected_, h.sequence - expected_)`, with the gap it notes. -/
def noteMissing (d : Decoder) (sequence : BitVec 64) : Decoder × List Gap :=
  if d.expected < sequence then
    (d.noteGap d.expected (sequence - d.expected), [⟨d.expected, sequence - d.expected⟩])
  else (d, [])

/-- `on_packet`. -/
def onPacket (d : Decoder) (pkt : PacketView) : Reading (Decoder × Report) :=
  if pkt.len < kHeaderSize then pure ({ d with malformed := d.malformed + 1 }, {})
  else do
    let h ← decodeHeader pkt.data
    let d := d.adopt h
    if h.messageCount = kEndOfSession then
      let missing := d.noteMissing h.sequence
      let d := if d.expected < h.sequence then { missing.1 with expected := h.sequence } else missing.1
      pure ({ d with eos := true, lastSequence := h.sequence }, { noted := missing.2 })
    else if h.messageCount = kHeartbeat then pure ({ d with heartbeats := d.heartbeats + 1 }, {})
    else if h.sequence < d.expected then pure ({ d with duplicates := d.duplicates + 1 }, {})
    else do
      let framer : Framer := ⟨pkt.data + kHeaderSize, pkt.len - kHeaderSize, 0⟩
      let (blocks, check) ← framer.walk (fun blocks _ => pure (blocks + 1#32)) 0#32
      if !check.exhausted ∨ blocks ≠ h.messageCount.setWidth 32 then
        pure ({ d with malformed := d.malformed + 1 }, {})
      else do
        let missing := d.noteMissing h.sequence
        let d := { missing.1 with lastSequence := h.sequence }
        let (sunk, _) ← framer.walk (fun sunk mv => pure (sunk ++ [(mv, pkt.rxTsc)])) []
        let d := { d with
          messages := d.messages + h.messageCount.setWidth 64
          applied := d.applied + 1
          expected := h.sequence + h.messageCount.setWidth 64 }
        pure (d, { noted := missing.2, sunk })

end Decoder

/-! ## Runs -/

/-- A packet on its way to `on_packet`, and the memory it lies in. -/
structure Arrival where
  mem : Memory
  pkt : PacketView

namespace Arrival

/-- The bytes of the packet. -/
def bytes (a : Arrival) : List Byte := bytesAt a.mem a.pkt.data a.pkt.len

/-- The header, of a packet that has one. -/
def header (a : Arrival) : Header := (decodeHeader a.pkt.data).value a.mem

/-- What follows the header. -/
def body (a : Arrival) : List Byte := bytesAt a.mem (a.pkt.data + kHeaderSize) (a.pkt.len - kHeaderSize)

/-- A packet alone in memory. -/
def ofBytes (bytes : List Byte) : Arrival := ⟨memoryOf bytes, 0, bytes.length, 0⟩

end Arrival

/-- What a packet made heard: the gaps noted, and the messages handed to the sink with their sequence numbers,
the packet's sequence plus the index of the block. -/
structure Heard where
  noted : List Gap := []
  messages : List (List Byte) := []
  numbers : List Nat := []
  deriving DecidableEq, Repr

/-- One packet. -/
def Decoder.step (d : Decoder) (a : Arrival) : Decoder × Heard :=
  let r := (d.onPacket a.pkt).value a.mem
  (r.1, {
    noted := r.2.noted
    messages := r.2.sunk.map fun call => call.1.bytes a.mem
    numbers := List.range' a.header.sequence.toNat r.2.sunk.length })

end Nts.Mold
