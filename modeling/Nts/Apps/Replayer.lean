import Nts.Mold.Packer

/-!
# The replayer (`apps/replayer/main.cc`)

The loop that cuts a file into packets: `flush`, the message loop with its retry and its
early stop, and the end of session behind it. Definitions only, in the source's order.

The socket takes what it is given; what was handed to it is `sent`. The drop decisions are a
parameter, one for each packet index. Pacing and the schedule log, which keep times, are left out, as are the
options' parsing and the printed summary. Counters are natural numbers: none can reach 2^64.
-/

namespace Nts.Apps
open Reading Itch Mold

/-- `DropEntry`. -/
structure DropEntry where
  first : BitVec 64
  count : BitVec 64
  packetIndex : Nat
  deriving DecidableEq, Repr

/-- The options the loop reads, and the decisions of the gap injector. -/
structure ReplayerOptions where
  session : Session
  /-- `kHeaderSize + max_payload` does not wrap, and a buffer of that size can be allocated. -/
  maxPayload : Nat
  maxPackets : Nat := 0
  shouldDrop : Nat → Bool := fun _ => false

/-- The variables of `main`; `refused` is its `return 1` in the loop. -/
structure Replayer where
  packer : Packer
  messagesRead : Nat := 0
  messagesPacked : Nat := 0
  packetsBuilt : Nat := 0
  packetsDropped : Nat := 0
  tooLarge : Nat := 0
  stoppedEarly : Bool := false
  refused : Bool := false
  drops : List DropEntry := []
  sent : List (List Byte) := []

namespace Replayer

/-- `flush`. -/
def flush (o : ReplayerOptions) (r : Replayer) : Replayer :=
  if r.packer.empty then r
  else
    let seq := r.packer.packetSequence
    let count := r.packer.count
    let (packer, reply) := r.packer.finish
    let pkt := reply.packet.getD []
    let index := r.packetsBuilt
    let r := { r with packer, packetsBuilt := r.packetsBuilt + 1 }
    if o.shouldDrop index then
      { r with packetsDropped := r.packetsDropped + 1, drops := r.drops ++ [⟨seq, count.setWidth 64, index⟩] }
    else { r with sent := r.sent ++ [pkt] }

/-- One round of the loop; the flag says that it is left. -/
def onMessage (o : ReplayerOptions) (r : Replayer) (mv : MessageView) : Reading (Replayer × Bool) :=
  let r := { r with messagesRead := r.messagesRead + 1 }
  if r.packer.tooLarge mv.size then pure ({ r with tooLarge := r.tooLarge + 1 }, false)
  else do
    let msg ← readBytes mv.data mv.size
    let (packer, added) := r.packer.tryAdd msg
    let r := { r with packer }
    if !added.accepted then
      let r := r.flush o
      if o.maxPackets ≠ 0 ∧ r.packetsBuilt ≥ o.maxPackets then pure ({ r with stoppedEarly := true }, true)
      else
        let (packer, again) := r.packer.tryAdd msg
        let r := { r with packer }
        if !again.accepted then pure ({ r with refused := true }, true)
        else pure ({ r with messagesPacked := r.messagesPacked + 1 }, false)
    else pure ({ r with messagesPacked := r.messagesPacked + 1 }, false)

/-- Behind the loop: the undone count, the last packet and the end of session. -/
def close (o : ReplayerOptions) (r : Replayer) : Replayer :=
  if r.refused then r
  else
    let r := if r.stoppedEarly then { r with messagesRead := r.messagesRead - 1 } else r
    let r := r.flush o
    let (packer, reply) := r.packer.endOfSession
    { r with packer, sent := r.sent ++ [reply.packet.getD []] }

/-- The whole run over a file. -/
def run (o : ReplayerOptions) (data size : Nat) : Reading Replayer := do
  let (r, _) ← Framer.walkUntil (onMessage o) ⟨data, size, 0⟩ { packer := .new o.session 1 o.maxPayload }
  pure (r.close o)

/-- `packed_all`. -/
def packedAll (r : Replayer) : Bool := r.messagesPacked + r.tooLarge == r.messagesRead

/-- `seq_ok`. -/
def seqOk (r : Replayer) : Bool := r.packer.packetSequence == 1#64 + .ofNat 64 r.messagesPacked

end Replayer
end Nts.Apps
