import Nts.Mold.Packer
import Nts.Mold.DecoderSteps

/-!
# From the packer to the decoder

What a decoder does with the packets of a packer: `step_packet`, `step_idle` and `step_marker'`
say it of one packet each, and `packer_to_decoder` of every run of the packer whose packets
arrive one after the other.
-/

namespace Nts.Mold
open Reading Itch

namespace Arrival
variable {a : Arrival}

/-- A packet of messages shows them and is whole. -/
theorem of_packet {s : Session} {q : BitVec 64} {ms : List (List Byte)} (bytes : a.bytes = packetOf s q ms)
    (framed : ∀ m ∈ ms, Framed m) (below : ms.length < 0xFFFF) :
    kHeaderSize ≤ a.pkt.len ∧ a.header = ⟨s, q, .ofNat 16 ms.length⟩ ∧ a.Whole ∧ a.messages = ms := by
  obtain ⟨long, header, body⟩ := of_header bytes
  refine ⟨long, header, ⟨ms, framed, ?_, body⟩, ?_⟩
  · rw [header]
    exact (Nat.mod_eq_of_lt (by omega)).symm
  · rw [Arrival.messages, body, parse_blocks framed]

end Arrival

namespace Decoder
variable {d : Decoder} {a : Arrival} {s : Session} {q : BitVec 64}

/-- No packet was counted as a duplicate or as malformed, and the session never changed. -/
structure Clean (d : Decoder) : Prop where
  duplicates : d.duplicates = 0
  malformed : d.malformed = 0
  sessionChanges : d.sessionChanges = 0

/-- Once started, the decoder is in the session and the sequence is not in its past. -/
def Ready (d : Decoder) (s : Session) (q : BitVec 64) : Prop :=
  d.started = true → d.session = s ∧ ¬ q < d.expected

/-- The gap in front of a sequence, for a decoder that has heard of the session. -/
def missed (d : Decoder) (q : BitVec 64) : List Gap := if d.started then d.missing q else []

/-- The decoder is in the session and expects the sequence. -/
structure At (d : Decoder) (s : Session) (q : BitVec 64) : Prop where
  started : d.started = true
  session : d.session = s
  expected : d.expected = q

/-- The session rule for a header the decoder is ready for. -/
theorem Ready.adopt {h : Header} (ready : d.Ready h.session h.sequence) (clean : d.Clean) :
    (d.adopt h).Clean ∧ ¬ h.sequence < (d.adopt h).expected ∧ (d.adopt h).missing h.sequence = d.missed h.sequence := by
  unfold Ready missed at *
  cases started : d.started with
  | false =>
    rw [adopt_of_opens (.inl started)]
    refine ⟨⟨clean.duplicates, clean.malformed, ?_⟩, BitVec.lt_irrefl _, ?_⟩
    · dsimp only
      rw [started]
      exact clean.sessionChanges
    · exact if_neg (BitVec.lt_irrefl _)
  | true =>
    obtain ⟨session, ahead⟩ := ready started
    have same : ¬ d.Opens h := by
      rintro (fresh | other)
      · rw [started] at fresh
        cases fresh
      · exact other session.symm
    rw [adopt_of_not_opens same]
    exact ⟨clean, ahead, rfl⟩

/-- A packet of messages that does not lie in the past is delivered. -/
theorem step_packet {ms : List (List Byte)} (bytes : a.bytes = packetOf s q ms) (framed : ∀ m ∈ ms, Framed m)
    (nonempty : ms ≠ []) (below : ms.length < 0xFFFF) (ready : d.Ready s q) (clean : d.Clean) :
    (d.step a).1.Clean ∧ (d.step a).1.At s (q + (BitVec.ofNat 16 ms.length).setWidth 64) ∧
      (d.step a).2.messages = ms ∧ (d.step a).2.noted = d.missed q := by
  obtain ⟨long, header, whole, messages⟩ := Arrival.of_packet bytes framed below
  have ready' : d.Ready a.header.session a.header.sequence := by rwa [header]
  obtain ⟨clean', ahead, missing⟩ := ready'.adopt clean
  have started := started_adopt d a.header
  have count : (BitVec.ofNat 16 ms.length).toNat = ms.length := Nat.mod_eq_of_lt (by omega)
  have counted : a.header.messageCount ≠ kEndOfSession ∧ a.header.messageCount ≠ kHeartbeat := by
    have positive := List.length_pos_of_ne_nil nonempty
    rw [header]
    constructor <;> intro equal <;> have value := congrArg BitVec.toNat equal <;> rw [count] at value
    · exact absurd value (Nat.ne_of_lt below)
    · exact absurd value (Nat.ne_of_gt positive)
  rw [step_delivered ⟨long, counted, ahead⟩ whole.passes, missing, messages]
  generalize d.adopt a.header = u at *
  rw [header] at started ⊢
  exact ⟨⟨clean'.duplicates, clean'.malformed, clean'.sessionChanges⟩, ⟨started.1, started.2, rfl⟩, rfl, rfl⟩

/-- Before its first packet, or in step. -/
def InStep (d : Decoder) (s : Session) (q : BitVec 64) : Prop := d.started = true → d.At s q

theorem InStep.ready (inStep : d.InStep s q) : d.Ready s q := by
  intro started
  obtain ⟨_, session, expected⟩ := inStep started
  exact ⟨session, by rw [expected]; exact BitVec.lt_irrefl q⟩

theorem InStep.missed (inStep : d.InStep s q) : d.missed q = [] := by
  unfold Decoder.missed
  split
  · next started => exact if_neg (by rw [(inStep started).expected]; exact BitVec.lt_irrefl q)
  · rfl

theorem InStep.adopt {h : Header} (inStep : d.InStep h.session h.sequence) : (d.adopt h).At h.session h.sequence := by
  obtain ⟨started, session⟩ := started_adopt d h
  refine ⟨started, session, ?_⟩
  by_cases opens : d.Opens h
  · rw [adopt_of_opens opens]
  · rw [adopt_of_not_opens opens]
    exact (inStep (by simpa using (not_or.mp opens).1)).expected

/-- A packet without messages is a heartbeat. -/
theorem step_idle (bytes : a.bytes = packetOf s q []) (inStep : d.InStep s q) (clean : d.Clean) :
    (d.step a).1.Clean ∧ (d.step a).1.At s q ∧ (d.step a).2 = {} := by
  obtain ⟨long, header, _⟩ := Arrival.of_header bytes
  have inStep' : d.InStep a.header.session a.header.sequence := by rwa [header]
  obtain ⟨clean', _⟩ := inStep'.ready.adopt clean
  have adopted := inStep'.adopt
  rw [step_heartbeat long (by rw [header]; rfl)]
  generalize d.adopt a.header = u at *
  rw [header] at adopted
  exact ⟨⟨clean'.duplicates, clean'.malformed, clean'.sessionChanges⟩,
    ⟨adopted.started, adopted.session, adopted.expected⟩, rfl⟩

/-- The end of session shows a gap in front of it and delivers nothing. -/
theorem step_end (bytes : a.bytes = encodeHeader ⟨s, q, kEndOfSession⟩) (ready : d.Ready s q) (clean : d.Clean) :
    (d.step a).1.Clean ∧ (d.step a).1.At s q ∧ (d.step a).2.messages = [] ∧ (d.step a).2.noted = d.missed q := by
  obtain ⟨long, header, _⟩ := Arrival.of_header (bytes.trans (List.append_nil _).symm)
  have ready' : d.Ready a.header.session a.header.sequence := by rwa [header]
  obtain ⟨clean', ahead, missing⟩ := ready'.adopt clean
  obtain ⟨started, session⟩ := started_adopt d a.header
  rw [step_marker long (by rw [header]), missing]
  generalize d.adopt a.header = u at *
  rw [header] at ahead session ⊢
  refine ⟨⟨clean'.duplicates, clean'.malformed, clean'.sessionChanges⟩, ⟨started, session, ?_⟩, rfl, rfl⟩
  rw [expected_afterMarker]
  split
  · rfl
  · next noGap => exact BitVec.le_antisymm (BitVec.not_lt.mp ahead) (BitVec.not_lt.mp noGap)

end Decoder

/-! ## Runs of the packer -/

namespace Packer
variable {p : Packer} {pending : List (List Byte)} {calls : List Call}

/-- The blocks fill the body. -/
theorem Holds.length_blocks (holds : p.Holds pending) : (pending.flatMap block).length = p.body := by
  have room := holds.room
  rw [← holds.blocks, Store.slice, List.length_take, List.length_drop, holds.size]
  omega

/-- A packet fits its buffer and a datagram. -/
theorem Holds.length_packet (holds : p.Holds pending) (q : BitVec 64) :
    (packetOf p.session q pending).length ≤ kHeaderSize + p.maxPayload ∧
      (packetOf p.session q pending).length < 2 ^ 32 := by
  have room := holds.room
  have below := holds.below
  have most : ∀ ms : List (List Byte), (∀ m ∈ ms, Framed m) → (ms.flatMap block).length ≤ ms.length * 65537 := by
    intro ms
    induction ms with
    | nil => exact fun _ => Nat.le_refl 0
    | cons m ms ih =>
      intro framed
      have rest := ih fun m' later => framed m' (List.mem_cons_of_mem _ later)
      have first := (framed m List.mem_cons_self).2
      rw [List.flatMap_cons, List.length_append, length_block, List.length_cons]
      omega
  have size := most pending holds.framed
  rw [packetOf, List.length_append, length_encodeHeader, holds.length_blocks] at *
  unfold kHeaderSize
  omega

/-- What every run keeps: the session, the buffer with its blocks, every store inside it, every
packet no longer than it and a datagram. -/
theorem holds_run (holds : p.Holds pending) (framed : ∀ msg, .tryAdd msg ∈ calls → Framed msg) :
    ((∃ pending', (Runs.after step p calls).Holds pending') ∧ (Runs.after step p calls).session = p.session ∧
      (Runs.after step p calls).maxPayload = p.maxPayload) ∧
    ∀ reply ∈ Runs.answers step p calls, (∀ w ∈ reply.stores, w.Inside (kHeaderSize + p.maxPayload)) ∧
      ∀ packet ∈ reply.packet, packet.length ≤ kHeaderSize + p.maxPayload ∧ packet.length < 2 ^ 32 := by
  induction calls generalizing p pending with
  | nil => exact ⟨⟨⟨pending, holds⟩, rfl, rfl⟩, fun _ member => (List.not_mem_nil member).elim⟩
  | cons c cs ih =>
    have later : ∀ msg, .tryAdd msg ∈ cs → Framed msg := fun msg member => framed msg (List.mem_cons_of_mem _ member)
    simp only [Runs.after_cons, Runs.answers, List.forall_mem_cons]
    cases c with
    | tryAdd msg =>
      rcases holds.tryAdd (framed msg List.mem_cons_self) with refused | ⟨p', stores, added, holds', session, _, size, inside⟩
      · rw [step, refused]
        obtain ⟨final, rest⟩ := ih holds later
        exact ⟨final, ⟨fun _ member => (List.not_mem_nil member).elim, fun _ packet => by cases packet⟩, rest⟩
      · rw [step, added]
        obtain ⟨⟨final, session', size'⟩, rest⟩ := ih holds' later
        rw [size] at size' rest
        exact ⟨⟨final, session'.trans session, size'⟩, ⟨inside, fun _ packet => by cases packet⟩, rest⟩
    | finish =>
      obtain ⟨packet, holds', inside⟩ := holds.finish
      obtain ⟨final, rest⟩ := ih holds' later
      refine ⟨final, ⟨inside, fun bytes returned => ?_⟩, rest⟩
      rw [step, packet, Option.mem_some_iff] at returned
      rw [← returned]
      exact holds.length_packet p.sequence
    | endOfSession =>
      obtain ⟨packet, holds', inside⟩ := holds.endOfSession
      obtain ⟨final, rest⟩ := ih holds' later
      refine ⟨final, ⟨inside, fun bytes returned => ?_⟩, rest⟩
      rw [step, packet, Option.mem_some_iff] at returned
      rw [← returned, length_encodeHeader]
      unfold kHeaderSize
      omega

theorem packets_none {c : Call} {cs : List Call} (silent : (p.step c).2.packet = none) :
    p.packets (c :: cs) = (p.step c).1.packets cs :=
  List.filterMap_cons_none silent

theorem packets_some {c : Call} {cs : List Call} {bytes : List Byte} (returned : (p.step c).2.packet = some bytes) :
    p.packets (c :: cs) = bytes :: (p.step c).1.packets cs :=
  List.filterMap_cons_some returned

/-- The packet of `finish`, at a decoder in step with the packer. -/
theorem step_finished (holds : p.Holds pending) {d : Decoder} (clean : d.Clean) (inStep : d.InStep p.session p.sequence)
    {a : Arrival} (bytes : a.bytes = packetOf p.session p.sequence pending) :
    (d.step a).1.Clean ∧ (d.step a).1.At p.session p.finish.1.sequence ∧ (d.step a).2.messages = pending ∧
      (d.step a).2.noted = [] := by
  have count : p.count = .ofNat 16 pending.length := by
    rw [← holds.counted, BitVec.ofNat_toNat, BitVec.setWidth_eq]
  show _ ∧ (d.step a).1.At p.session (p.sequence + p.count.setWidth 64) ∧ _ ∧ _
  rw [count]
  by_cases idle : pending = []
  · subst idle
    obtain ⟨clean', at', heard⟩ := Decoder.step_idle bytes inStep clean
    rw [heard]
    refine ⟨clean', ?_, rfl, rfl⟩
    show (d.step a).1.At p.session (p.sequence + 0#64)
    rwa [BitVec.add_zero]
  · obtain ⟨clean', at', messages, noted⟩ := Decoder.step_packet bytes holds.framed idle holds.below inStep.ready clean
    exact ⟨clean', at', messages, noted.trans inStep.missed⟩

/-- The packets of a run, fed to a decoder in step with the packer. -/
theorem link_run (holds : p.Holds pending) (framed : ∀ msg, .tryAdd msg ∈ calls → Framed msg) {d : Decoder}
    (clean : d.Clean) (inStep : d.InStep p.session p.sequence) {arrivals : List Arrival}
    (carried : arrivals.map Arrival.bytes = p.packets calls) :
    (Runs.answers Decoder.step d arrivals).flatMap Heard.messages = (packed p pending calls).flatMap Packed.messages ∧
      (Runs.answers Decoder.step d arrivals).flatMap Heard.noted = [] ∧
      (Runs.after Decoder.step d arrivals).Clean ∧
      (Runs.after Decoder.step d arrivals).InStep p.session (Runs.after step p calls).sequence ∧
      (d.started = true ∨ arrivals ≠ [] → (Runs.after Decoder.step d arrivals).started = true) := by
  induction calls generalizing p pending d arrivals with
  | nil =>
    obtain rfl := List.map_eq_nil_iff.mp carried
    exact ⟨rfl, rfl, clean, inStep, fun begun => begun.resolve_right fun arrived => arrived rfl⟩
  | cons c cs ih =>
    have later : ∀ msg, .tryAdd msg ∈ cs → Framed msg := fun msg member => framed msg (List.mem_cons_of_mem _ member)
    cases c with
    | tryAdd msg =>
      rcases holds.tryAdd (framed msg List.mem_cons_self) with refused | ⟨p', stores, added, holds', session, sequence, _⟩
      · rw [packets_none (by rw [step, refused]), step, refused] at carried
        rw [packed, refused, Runs.after_cons, step, refused]
        exact ih holds later clean inStep carried
      · rw [packets_none (by rw [step, added]), step, added] at carried
        rw [packed, added, Runs.after_cons, step, added, ← session]
        rw [← session, ← sequence] at inStep
        exact ih holds' later clean inStep carried
    | finish =>
      obtain ⟨packet, holds', _⟩ := holds.finish
      rw [packets_some (p := p) (c := .finish) packet] at carried
      obtain ⟨a, as, rfl, bytes, rest⟩ := List.map_eq_cons_iff.mp carried
      obtain ⟨clean', along, messages, noted⟩ := step_finished holds clean inStep bytes
      obtain ⟨heard, quiet, clean'', inStep', begun⟩ := ih holds' later clean' (fun _ => along) rest
      simp only [Runs.answers, Runs.after_cons, List.flatMap_cons, packed, messages, noted, List.nil_append]
      exact ⟨congrArg _ heard, quiet, clean'', inStep', fun _ => begun (.inl along.started)⟩
    | endOfSession =>
      obtain ⟨packet, holds', _⟩ := holds.endOfSession
      rw [packets_some (p := p) (c := .endOfSession) packet] at carried
      obtain ⟨a, as, rfl, bytes, rest⟩ := List.map_eq_cons_iff.mp carried
      obtain ⟨clean', along, messages, noted⟩ := Decoder.step_end bytes inStep.ready clean
      rw [inStep.missed] at noted
      obtain ⟨heard, quiet, clean'', inStep', begun⟩ := ih holds' later clean' (fun _ => along) rest
      simp only [Runs.answers, Runs.after_cons, List.flatMap_cons, packed, messages, noted, List.nil_append]
      exact ⟨heard, quiet, clean'', inStep', fun _ => begun (.inl along.started)⟩

end Packer

/-- **Packer to decoder.** In every run of a packer the packet being built stays inside its
buffer and no byte is stored outside it. Its packets, fed to a fresh decoder in order, make heard exactly the
messages accepted and since covered by a `finish`, in order and once; nothing is counted as a
fault, and behind every packet the decoder expects the sequence the packer is at. -/
theorem packer_to_decoder (session : Session) (firstSequence : BitVec 64) (maxPayload : Nat)
    (calls : List Packer.Call) (framed : ∀ msg, .tryAdd msg ∈ calls → Framed msg) :
    ((Runs.after Packer.step (.new session firstSequence maxPayload) calls).body ≤ maxPayload ∧
      (Runs.after Packer.step (.new session firstSequence maxPayload) calls).count < kEndOfSession ∧
      (Runs.after Packer.step (.new session firstSequence maxPayload) calls).buffer.length = kHeaderSize + maxPayload ∧
      ∀ reply ∈ Runs.answers Packer.step (.new session firstSequence maxPayload) calls,
        (∀ w ∈ reply.stores, w.Inside (kHeaderSize + maxPayload)) ∧ ∀ packet ∈ reply.packet, packet.length < 2 ^ 32) ∧
    ∀ arrivals : List Arrival,
      arrivals.map Arrival.bytes = (Packer.new session firstSequence maxPayload).packets calls →
      (Runs.answers Decoder.step {} arrivals).flatMap Heard.messages =
          (Packer.packed (.new session firstSequence maxPayload) [] calls).flatMap Packer.Packed.messages ∧
        (Runs.after Decoder.step {} arrivals).duplicates = 0 ∧ (Runs.after Decoder.step {} arrivals).malformed = 0 ∧
        (Runs.after Decoder.step {} arrivals).gapsTotal = 0 ∧
        (Runs.after Decoder.step {} arrivals).sessionChanges = 0 ∧
        (arrivals ≠ [] → (Runs.after Decoder.step {} arrivals).expected =
          (Runs.after Packer.step (.new session firstSequence maxPayload) calls).sequence) := by
  have holds := Packer.holds_new session firstSequence maxPayload
  obtain ⟨⟨⟨pending, final⟩, _, size⟩, each⟩ := Packer.holds_run holds framed
  have room := final.room
  have buffer := final.size
  have counted := final.counted
  have below := final.below
  rw [size] at room buffer
  refine ⟨⟨room, ?_, buffer, fun reply member => ⟨(each reply member).1, fun packet returned =>
    ((each reply member).2 packet returned).2⟩⟩, ?_⟩
  · rw [BitVec.lt_def, counted]
    exact below
  · intro arrivals carried
    have fresh : ({} : Decoder).InStep session firstSequence := fun started => by cases started
    obtain ⟨heard, quiet, clean, inStep, begun⟩ := Packer.link_run holds framed ⟨rfl, rfl, rfl⟩ fresh carried
    have total := (Decoder.logged_run {} arrivals).total
    rw [quiet] at total
    exact ⟨heard, clean.duplicates, clean.malformed, total, clean.sessionChanges,
      fun arrived => (inStep (begun (.inr arrived))).expected⟩

/-- Two packets, an end of session between them. -/
theorem packer_to_decoder_run : (Runs.answers Decoder.step {} [.ofBytes (packetOf noSession 1#64 [[1#8]]),
    .ofBytes (encodeHeader ⟨noSession, 2#64, kEndOfSession⟩),
    .ofBytes (packetOf noSession 2#64 [[2#8, 3#8]])]).flatMap Heard.messages = [[1#8], [2#8, 3#8]] := by
  have calls : ∀ msg, .tryAdd msg ∈ [Packer.Call.tryAdd [1#8], .finish, .tryAdd [2#8, 3#8], .endOfSession, .finish] →
      Framed msg := by
    intro msg member
    simp only [List.mem_cons, Packer.Call.tryAdd.injEq, reduceCtorEq, false_or, List.not_mem_nil, or_false] at member
    rcases member with rfl | rfl <;> decide
  exact ((packer_to_decoder noSession 1#64 8 _ calls).2 _ (by decide +kernel)).1.trans (by decide +kernel)

end Nts.Mold
