import Nts.Apps.ReplayerRuns
import Nts.Mold.GapInjector

/-!
# `main` of the replayer (`apps/replayer/main.cc`, `mold/udp_sender.h`, `mold/udp_sender.cc`)

The loop of `Replayer` with everything it drives: the sender and what the kernel answers it, the gap
injector with its state, the rows of the schedule log, and the exit code. What the clock and
`sendto` give is an environment.

A datagram is atomic: it leaves with the whole of its bytes or `sendto` fails. The options' parsing, the
printing and the exceptions of opening the file and the socket are left out.
-/

namespace Nts.Mold
open Itch

/-- `UdpSender`: its counters. -/
structure UdpSender where
  packets : Nat := 0
  bytes : Nat := 0
  failures : Nat := 0
  deriving DecidableEq, Repr

/-- `send`, where `sendto` returned `n`. -/
def UdpSender.send (s : UdpSender) (n : Int) (packet : List Byte) : UdpSender × Bool :=
  if n < 0 ∨ n.toNat ≠ packet.length then ({ s with failures := s.failures + 1 }, false)
  else ({ s with packets := s.packets + 1, bytes := s.bytes + packet.length }, true)

theorem UdpSender.send_eq (s : UdpSender) (n : Int) (packet : List Byte) :
    s.send n packet = if n = packet.length then ({ s with packets := s.packets + 1, bytes := s.bytes + packet.length }, true)
      else ({ s with failures := s.failures + 1 }, false) := by
  rw [send]
  by_cases whole : n = packet.length
  · rw [if_pos whole, if_neg (by omega)]
  · rw [if_neg whole, if_pos (by omega)]

end Nts.Mold

namespace Nts.Apps
open Reading Itch Mold

/-- `Options`, with what the run reads of them. -/
structure MainOptions where
  session : List Byte := "ITCH191230".toList.map fun c => .ofNat 8 c.toNat
  /-- `kHeaderSize + max_payload` does not wrap, and a buffer of that size can be allocated. -/
  maxPayload : Nat := 1400
  dropEvery : BitVec 64 := 0
  dropProb : ℚ := 0
  seed : BitVec 64 := 1
  maxPackets : Nat := 0
  /-- Whether a schedule log is asked for. -/
  scheduleLog : Bool := false

/-- `ScheduleEntry`. -/
structure ScheduleEntry where
  sequence : BitVec 64
  count : BitVec 16
  scheduledNs : BitVec 64
  actualNs : BitVec 64
  dropped : Bool
  deriving DecidableEq, Repr

/-- What the run meets: what the calls of `sendto` return, and for each packet the time it is due and the time behind it. -/
structure Environment where
  sendto : Nat → Int
  due : Nat → BitVec 64
  now : Nat → BitVec 64

namespace MainOptions

/-- `gaps`. -/
def gaps (o : MainOptions) : GapInjector :=
  if o.dropEvery ≠ 0 then .everyNth o.dropEvery
  else if o.dropProb > 0 then .withProbability o.dropProb o.seed
  else .none

/-- What the loop is given. -/
def loop (o : MainOptions) : ReplayerOptions where
  session := makeSession o.session
  maxPayload := o.maxPayload
  maxPackets := o.maxPackets
  shouldDrop := o.gaps.drops

end MainOptions

/-- The variables of `main`; `sent` is what `send` was called with, `onWire` what left. -/
structure ReplayerMain extends Replayer where
  sender : UdpSender := {}
  gaps : GapInjector
  schedule : List ScheduleEntry := []
  onWire : List (List Byte) := []

namespace ReplayerMain
variable (o : MainOptions) (e : Environment)

/-- A call of `sender.send`. -/
def send (m : ReplayerMain) (pkt : List Byte) : ReplayerMain :=
  let result := m.sender.send (e.sendto m.sent.length) pkt
  { m with sender := result.1, sent := m.sent ++ [pkt], onWire := if result.2 then m.onWire ++ [pkt] else m.onWire }

/-- `flush`. -/
def flush (m : ReplayerMain) : ReplayerMain :=
  if m.packer.empty then m
  else
    let seq := m.packer.packetSequence
    let count := m.packer.count
    let (packer, reply) := m.packer.finish
    let pkt := reply.packet.getD []
    let index := m.packetsBuilt
    let due := e.due index
    let (gaps, drop) := m.gaps.shouldDrop (.ofNat 64 index)
    let m := { m with packer, packetsBuilt := m.packetsBuilt + 1, gaps }
    let m := if drop then
        { m with packetsDropped := m.packetsDropped + 1, drops := m.drops ++ [⟨seq, count.setWidth 64, index⟩] }
      else m.send e pkt
    if o.scheduleLog then { m with schedule := m.schedule ++ [⟨seq, count, due, e.now index, drop⟩] } else m

/-- One round of the loop; the flag says that it is left. -/
def onMessage (m : ReplayerMain) (mv : MessageView) : Reading (ReplayerMain × Bool) :=
  let m := { m with messagesRead := m.messagesRead + 1 }
  if m.packer.tooLarge mv.size then pure ({ m with tooLarge := m.tooLarge + 1 }, false)
  else do
    let msg ← readBytes mv.data mv.size
    let (packer, added) := m.packer.tryAdd msg
    let m := { m with packer }
    if !added.accepted then
      let m := m.flush o e
      if o.maxPackets ≠ 0 ∧ m.packetsBuilt ≥ o.maxPackets then pure ({ m with stoppedEarly := true }, true)
      else
        let (packer, again) := m.packer.tryAdd msg
        let m := { m with packer }
        if !again.accepted then pure ({ m with refused := true }, true)
        else pure ({ m with messagesPacked := m.messagesPacked + 1 }, false)
    else pure ({ m with messagesPacked := m.messagesPacked + 1 }, false)

/-- Behind the loop: the undone count, the last packet and the end of session. -/
def close (m : ReplayerMain) : ReplayerMain :=
  if m.refused then m
  else
    let m := if m.stoppedEarly then { m with messagesRead := m.messagesRead - 1 } else m
    let m := m.flush o e
    let (packer, reply) := m.packer.endOfSession
    { m with packer }.send e (reply.packet.getD [])

/-- `main`, over the contents of the file. -/
def run (data size : Nat) : Reading ReplayerMain := do
  let (m, _) ← Framer.walkUntil (onMessage o e) ⟨data, size, 0⟩
    { packer := .new (makeSession o.session) 1 o.maxPayload, gaps := o.gaps }
  pure (m.close o e)

/-- What `main` returns. -/
def exitCode (m : ReplayerMain) : Nat :=
  if m.refused then 1
  else if m.packedAll && m.seqOk && m.sender.failures == 0 then 0 else 1

end ReplayerMain
end Nts.Apps
