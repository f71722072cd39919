import Nts.Apps.ReplayerRuns
import Nts.Book.Events

/-!
# The wire path

A decoder that applies what it is handed, behind a replayer. Its packets bring the messages of the
file in order, in other buffers and cut elsewhere; a message of its table length does the same wherever
it lies, so the books end as those of `replay` do.
-/

namespace Nts.Apps
open Reading Itch Mold Book

/-- A packet at a decoder whose sink is `apply_message`. -/
def receive (s : Decoder × BookSet × ReplayStats) (a : Arrival) : Decoder × BookSet × ReplayStats :=
  let r := (s.1.onPacket a.pkt).value a.mem
  (r.1, applyAll a.mem s.2 (r.2.sunk.map Prod.fst))

/-- The messages of a packet are applied, wherever they were in the file. -/
theorem receive_snd (s : Decoder × BookSet × ReplayStats) {a : Arrival} {mem : Memory} {mvs : List MessageView}
    (heard : (s.1.step a).2.messages = mvs.map (MessageView.bytes mem))
    (tabled : ∀ mv ∈ mvs, 1 ≤ mv.size ∧ mismatched mem mv = false) : (receive s a).2 = applyAll mem s.2 mvs := by
  apply applyAll_moved s.2 _ tabled
  rw [List.map_map]
  exact heard

section
variable {session : Session} {mem : Memory}

/-- The packets of a chain, at a decoder in step with it. -/
theorem receive_chained {q e : BitVec 64} {built : List Sent} (chained : Chained session q built e)
    {s : Decoder × BookSet × ReplayStats} (clean : s.1.Clean) (inStep : s.1.InStep session q) {arrivals : List Arrival}
    (carried : arrivals.map Arrival.bytes = built.map fun x => x.packet.bytes) {mvs : List MessageView}
    (shown : mvs.map (MessageView.bytes mem) = built.flatMap fun x => x.packet.messages)
    (tabled : ∀ mv ∈ mvs, 1 ≤ mv.size ∧ mismatched mem mv = false) :
    (arrivals.foldl receive s).1.Clean ∧ (arrivals.foldl receive s).1.InStep session e ∧
      (arrivals.foldl receive s).2 = applyAll mem s.2 mvs := by
  induction built generalizing q s arrivals mvs with
  | nil =>
    obtain rfl := List.map_eq_nil_iff.mp carried
    obtain rfl := List.map_eq_nil_iff.mp shown
    obtain rfl : q = e := chained
    exact ⟨clean, inStep, rfl⟩
  | cons x xs ih =>
    obtain ⟨⟨_, bytes, nonempty, below, framed⟩, later⟩ := chained
    obtain ⟨a, as, rfl, here, rest⟩ := List.map_eq_cons_iff.mp carried
    rw [List.flatMap_cons] at shown
    obtain ⟨front, back, rfl, frontShown, backShown⟩ := List.map_eq_append_iff.mp shown
    obtain ⟨clean', along, messages, _⟩ := Decoder.step_packet (here.trans bytes) framed nonempty below inStep.ready clean
    have width : (BitVec.ofNat 16 x.packet.messages.length).setWidth 64 = .ofNat 64 x.count := by
      have small : x.packet.messages.length < 0xFFFF := below
      apply BitVec.eq_of_toNat_eq
      rw [BitVec.toNat_setWidth, BitVec.toNat_ofNat, BitVec.toNat_ofNat, Sent.count]
      omega
    rw [width] at along
    have applied := receive_snd s (messages.trans frontShown.symm) fun mv member => tabled mv (List.mem_append_left _ member)
    obtain ⟨clean'', inStep', same⟩ := ih later (s := receive s a) clean' (fun _ => along) rest backShown
      fun mv member => tabled mv (List.mem_append_right _ member)
    refine ⟨clean'', inStep', ?_⟩
    rw [List.foldl_cons, same, applied, applyAll, applyAll, applyAll, List.foldl_append]

end

/-- What the replayer does with a buffer, and what a decoder makes of it. -/
structure Replays (mem : Memory) (o : ReplayerOptions) (data size : Nat) : Prop where
  packs : Replayer.Packs o ((Framer.handedOut mem ⟨data, size, 0⟩).map (MessageView.bytes mem))
    ((Replayer.run o data size).value mem)
  /-- Nothing dropped, nothing skipped, the whole file: a decoder ends where `replay` does. -/
  wire : (∀ i, o.shouldDrop i = false) → ((Replayer.run o data size).value mem).stoppedEarly = false →
    ((Replayer.run o data size).value mem).tooLarge = 0 →
    (∀ mv ∈ Framer.handedOut mem ⟨data, size, 0⟩, mismatched mem mv = false) →
    ∀ arrivals : List Arrival, arrivals.map Arrival.bytes = ((Replayer.run o data size).value mem).sent →
      (arrivals.foldl receive ({}, {}, {})).2 = (replay {} data size).value mem

/-- **The replayer's loop**, over every buffer, with all options and drop decisions. -/
theorem replayer_replays (mem : Memory) (o : ReplayerOptions) (data size : Nat) : Replays mem o data size := by
  obtain ⟨whole, framed, _⟩ := parse_spec (bytesAt mem data size)
  have shown := viewsFrom_bytes whole.symm
  have views : Framer.handedOut mem ⟨data, size, 0⟩ = viewsFrom data (parse (bytesAt mem data size)).1 :=
    Framer.handedOut_eq rfl
  have packs := Replayer.run_packs mem o data size
  rw [← shown, ← views] at packs
  refine ⟨packs, fun kept whole fitting tabled arrivals carried => ?_⟩
  obtain ⟨⟨built, isBuilt, all, _⟩, _, _, _, packedAll, _⟩ := packs
  obtain ⟨messages, read⟩ := all whole
  -- nothing was too large, so the packets carry every message
  have everything : (built.flatMap fun x => x.packet.messages) =
      (Framer.handedOut mem ⟨data, size, 0⟩).map (MessageView.bytes mem) := by
    rw [messages, List.filter_eq_self, ← List.length_filter_eq_length_iff, ← messages, isBuilt.packed, ← read]
    rw [Replayer.packedAll, beq_iff_eq, fitting] at packedAll
    exact packedAll
  have arriving : Sent.arriving built = built.map fun x => x.packet.bytes := by
    have flags : built.filter (fun x => !x.dropped) = built := by
      rw [List.filter_eq_self]
      intro x member
      obtain ⟨i, inside, rfl⟩ := List.mem_iff_getElem.mp member
      rw [isBuilt.flags i _ (List.getElem?_eq_getElem inside), kept]
      rfl
    rw [Sent.arriving, flags]
  rw [isBuilt.sent, arriving] at carried
  obtain ⟨packets, last, rfl, packetsShown, lastShown⟩ := List.map_eq_append_iff.mp carried
  obtain ⟨a, _, rfl, marker, nothing⟩ := List.map_eq_cons_iff.mp lastShown
  obtain rfl := List.map_eq_nil_iff.mp nothing
  have sized : ∀ mv ∈ Framer.handedOut mem ⟨data, size, 0⟩, 1 ≤ mv.size ∧ mismatched mem mv = false := by
    intro mv member
    have inside := member
    rw [views] at inside
    exact ⟨(size_of_viewsFrom framed inside).1, tabled mv member⟩
  have fresh : ({} : Decoder).InStep o.session 1 := fun started => by cases started
  obtain ⟨clean, inStep, same⟩ := receive_chained isBuilt.chained (s := ({}, {}, {})) ⟨rfl, rfl, rfl⟩ fresh packetsShown
    everything.symm sized
  obtain ⟨_, _, silent, _⟩ := Decoder.step_end marker inStep.ready clean
  have end' := @receive_snd _ _ mem [] silent fun _ member => (List.not_mem_nil member).elim
  rw [List.foldl_append, List.foldl_cons, List.foldl_nil, end', replay_value, ← same]
  rfl

end Nts.Apps
