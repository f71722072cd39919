import Nts.Apps.ReplayerMainRuns
import Nts.Apps.WirePath
import Nts.Mold.Network
import Nts.Receive.RecvfromReceiver

/-!
# From a file to the books, over any network

The replayer cuts a file into datagrams, loses some on purpose and some in `sendto`; the network
loses, repeats and reorders what left; the receiver is interrupted, stopped, and sets aside what is too long;
the decoder applies what it delivers. Whatever happens on the way, the books are those of some of the
file's messages in their order, and the decoder shows when they are those of all of them.
-/

namespace Nts.Mold
open Itch

/-- A chain whose numbers fit is consecutive. -/
theorem Chained.consecutive {s : Session} {q e : BitVec 64} {xs : List Sent} (chained : Chained s q xs e)
    (fits : q.toNat + (xs.map Sent.count).sum < 2 ^ 64) : Consecutive s q.toNat xs e.toNat := by
  induction xs generalizing q with
  | nil =>
    obtain rfl : q = e := chained
    rfl
  | cons x xs ih =>
    obtain ⟨⟨rfl, bytes, rest⟩, later⟩ := chained
    rw [List.map_cons, List.sum_cons, ← Nat.add_assoc] at fits
    have behind : (x.packet.sequence + .ofNat 64 x.count).toNat = x.packet.sequence.toNat + x.count := by
      rw [BitVec.toNat_add, BitVec.toNat_ofNat, Nat.add_mod_mod]
      exact Nat.mod_eq_of_lt ((Nat.le_add_right _ _).trans_lt fits)
    refine ⟨⟨rfl, bytes, rest⟩, ?_⟩
    rw [← behind]
    exact ih later (by rwa [behind])

end Nts.Mold

namespace Nts.Apps
open Reading Itch Mold Book Receive HighWater

/-- A file has twice as many bytes as messages. -/
theorem length_parse (bytes : List Byte) : 2 * (parse bytes).1.length ≤ bytes.length := by
  have whole := congrArg List.length (parse_spec bytes).1
  have blocks : 2 * (parse bytes).1.length ≤ ((parse bytes).1.flatMap block).length := by
    rw [List.length_flatMap]
    calc 2 * (parse bytes).1.length
      _ = ((parse bytes).1.map fun _ => 2).sum := by rw [List.map_const', List.sum_replicate, smul_eq_mul, Nat.mul_comm]
      _ ≤ _ := List.sum_le_sum fun m _ => by rw [length_block]; omega
  rw [List.length_append] at whole
  omega

/-- The packets a run cuts its file into. -/
structure Cuts (mem : Memory) (o : MainOptions) (data size : Nat) (m : ReplayerMain) (built : List Sent) : Prop where
  consecutive : Consecutive (makeSession o.session) (1#64).toNat built m.packer.packetSequence.toNat
  sent : m.sent = Sent.arriving built ++ [encodeHeader ⟨makeSession o.session, m.packer.packetSequence, kEndOfSession⟩]
  part : (built.flatMap fun x => x.packet.messages).Sublist ((Framer.handedOut mem ⟨data, size, 0⟩).map (MessageView.bytes mem))
  whole : m.tooLarge = 0 → m.stoppedEarly = false →
    (built.flatMap fun x => x.packet.messages).length = (Framer.handedOut mem ⟨data, size, 0⟩).length
  kept : m.packetsDropped = 0 → Sent.arriving built = built.map fun x => x.packet.bytes
  short : ∀ packet ∈ m.sent, packet.length ≤ kHeaderSize + o.maxPayload
  packed : (built.map Sent.count).sum = m.messagesPacked

section
variable {mem : Memory} {o : MainOptions} {e : Environment} {data size : Nat} {m : ReplayerMain}

theorem cuts_of_packs (sized : size < 2 ^ 64) (packs : Replayer.Packs o.loop (parse (bytesAt mem data size)).1 m.toReplayer) :
    ∃ built, Cuts mem o data size m built := by
  have file : (Framer.handedOut mem ⟨data, size, 0⟩).map (MessageView.bytes mem) = (parse (bytesAt mem data size)).1 := by
    rw [Framer.handedOut_eq rfl]
    exact viewsFrom_bytes (parse_spec (bytesAt mem data size)).1.symm
  obtain ⟨⟨built, isBuilt, all, early⟩, _, _, short, packedAll, _⟩ := packs
  have part : (built.flatMap fun x => x.packet.messages).Sublist (parse (bytesAt mem data size)).1 := by
    cases stopped : m.stoppedEarly with
    | false =>
      rw [(all stopped).1]
      exact List.filter_sublist
    | true => exact (early stopped).1.sublist.trans List.filter_sublist
  have counts : 2 * (built.map Sent.count).sum ≤ size := by
    have few := (Nat.mul_le_mul_left 2 part.length_le).trans (length_parse _)
    rwa [length_messages, length_bytesAt] at few
  refine ⟨built, isBuilt.chained.consecutive ?_, isBuilt.sent, file ▸ part, fun fitting stopped => ?_, fun dropped => ?_,
    fun packet member => (short packet member).1, (length_messages built).symm.trans isBuilt.packed⟩
  · change 1 + _ < 2 ^ 64
    omega
  · have counted := packedAll
    rw [Replayer.packedAll, beq_iff_eq, fitting] at counted
    have lengths := congrArg List.length file
    rw [List.length_map, ← (all stopped).2] at lengths
    exact isBuilt.packed.trans (counted.trans lengths.symm)
  · have parts := List.length_eq_length_filter_add (l := built) fun x => x.dropped
    rw [isBuilt.dropped, show m.packetsDropped = 0 from dropped, Nat.zero_add] at parts
    rw [Sent.arriving, List.filter_sublist.eq_of_length parts.symm]

end

/-- The receiver, the decoder, the books and the counters behind the turns of a receiver's run. -/
def wired (turns : List Turn) : RecvfromReceiver × Decoder × BookSet × ReplayStats :=
  (RecvfromReceiver.run receive ({}, {}, {}, {}) turns).1

end Nts.Apps
