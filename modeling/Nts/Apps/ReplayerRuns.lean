import Nts.Apps.Replayer
import Nts.Mold.Drops

/-!
# What the replayer packs

`Packing` is the loop invariant: the packets built so far and the messages of the packet being
built are the messages seen so far that fit, in order. One lemma for each path of a round gives
the run, whether it ends with the file or with its last packet.
-/

namespace Nts.Mold
open Itch

/-- Packets of messages, each with the sequence behind the packet before it, from `q` on; `e` is behind the last. -/
def Chained (s : Session) : BitVec 64 → List Sent → BitVec 64 → Prop
  | q, [], e => q = e
  | q, x :: xs, e =>
    (x.packet.sequence = q ∧ x.packet.bytes = packetOf s q x.packet.messages ∧
      x.packet.messages ≠ [] ∧ x.count < 0xFFFF ∧ ∀ m ∈ x.packet.messages, Framed m) ∧
    Chained s (q + .ofNat 64 x.count) xs e

theorem Chained.snoc {s : Session} {q r : BitVec 64} {xs : List Sent} (chained : Chained s q xs r) {x : Sent}
    (last : x.packet.sequence = r ∧ x.packet.bytes = packetOf s r x.packet.messages ∧
      x.packet.messages ≠ [] ∧ x.count < 0xFFFF ∧ ∀ m ∈ x.packet.messages, Framed m) :
    Chained s q (xs ++ [x]) (r + .ofNat 64 x.count) := by
  induction xs generalizing q with
  | nil =>
    obtain rfl : q = r := chained
    exact ⟨last, rfl⟩
  | cons y ys ih => exact ⟨chained.1, ih chained.2⟩

/-- The messages fill the sequence numbers. -/
theorem Chained.total {s : Session} {q e : BitVec 64} {xs : List Sent} (chained : Chained s q xs e) :
    e = q + .ofNat 64 (xs.flatMap fun x => x.packet.messages).length := by
  induction xs generalizing q with
  | nil =>
    obtain rfl : q = e := chained
    exact (BitVec.add_zero q).symm
  | cons x xs ih =>
    rw [ih chained.2, List.flatMap_cons, List.length_append, BitVec.ofNat_add, BitVec.add_assoc]
    rfl

namespace Packer
variable {p : Packer} {pending : List (List Byte)}

/-- An empty packet takes every message that is not too large. -/
theorem Holds.tryAdd_empty (holds : p.Holds []) {msg : List Byte} (fits : p.tooLarge msg.length = false) :
    (p.tryAdd msg).2.accepted = true := by
  have body : p.body = 0 := holds.length_blocks.symm
  have count : p.count = 0#16 := BitVec.eq_of_toNat_eq holds.counted
  rw [Packer.tooLarge, decide_eq_false_iff_not] at fits
  unfold Packer.tryAdd
  simp only [body, count]
  rw [if_neg (by omega), if_neg (by decide)]

theorem Holds.empty_iff (holds : p.Holds pending) : p.empty = true ↔ pending = [] := by
  have counted := holds.counted
  rw [Packer.empty, beq_iff_eq, ← List.length_eq_zero_iff, ← counted, ← BitVec.toNat_inj]
  rfl

end Packer
end Nts.Mold

namespace Nts.Apps
open Reading Itch Mold

namespace Replayer

/-- The packet fits the packer's buffer and a datagram. -/
def Short (o : ReplayerOptions) (packet : List Byte) : Prop :=
  packet.length ≤ kHeaderSize + o.maxPayload ∧ packet.length < 2 ^ 32

/-- The message is not too large for a packet. -/
def fits (o : ReplayerOptions) (msg : List Byte) : Bool := decide (2 + msg.length ≤ o.maxPayload)

/-- The packets built and the messages in the packet being built are the messages seen that fit. -/
structure Packing (o : ReplayerOptions) (seen : List (List Byte)) (built : List Sent) (pending : List (List Byte))
    (r : Replayer) : Prop where
  holds : r.packer.Holds pending
  session : r.packer.session = o.session
  maxPayload : r.packer.maxPayload = o.maxPayload
  chained : Chained o.session 1 built r.packer.sequence
  short : ∀ x ∈ built, Short o x.packet.bytes
  taken : (built.flatMap fun x => x.packet.messages) ++ pending = seen.filter (fits o)
  packed : r.messagesPacked = (seen.filter (fits o)).length
  large : r.messagesPacked + r.tooLarge = seen.length
  count : r.packetsBuilt = built.length
  flags : ∀ i x, built[i]? = some x → x.dropped = o.shouldDrop i
  dropped : r.packetsDropped = (built.filter fun x => x.dropped).length
  sent : r.sent = Sent.arriving built

variable {o : ReplayerOptions} {seen : List (List Byte)} {built : List Sent} {pending : List (List Byte)} {r : Replayer}

theorem packing_new (o : ReplayerOptions) : Packing o [] [] [] { packer := .new o.session 1 o.maxPayload } where
  holds := Packer.holds_new _ _ _
  session := rfl
  maxPayload := rfl
  chained := rfl
  short := fun _ member => (List.not_mem_nil member).elim
  taken := rfl
  packed := rfl
  large := rfl
  count := rfl
  flags := fun i x found => by cases found
  dropped := rfl
  sent := rfl

/-- `flush` of an empty packet does nothing. -/
theorem Packing.flush_empty (packing : Packing o seen built [] r) : r.flush o = r := by
  rw [flush, if_pos (packing.holds.empty_iff.mpr rfl)]

/-- `flush` builds the packet of the pending messages and sends or drops it. -/
theorem Packing.flush (packing : Packing o seen built pending r) (waiting : pending ≠ []) :
    ∃ x : Sent, Packing o seen (built ++ [x]) [] (r.flush o) ∧ (r.flush o).messagesRead = r.messagesRead ∧
      (r.flush o).stoppedEarly = r.stoppedEarly ∧ (r.flush o).refused = r.refused := by
  obtain ⟨holds, session, maxPayload, chained, short, taken, packed, large, count, flags, dropped, sent⟩ := packing
  obtain ⟨packet, holds', _⟩ := holds.finish
  have width : r.packer.count.setWidth 64 = .ofNat 64 pending.length := by
    rw [← holds.counted, BitVec.ofNat_toNat]
  have size := holds.length_packet r.packer.sequence
  rw [maxPayload, session] at size
  have last : Chained o.session 1 (built ++ [⟨⟨r.packer.sequence, pending, packetOf o.session r.packer.sequence pending⟩,
      o.shouldDrop built.length⟩]) (r.packer.sequence + .ofNat 64 pending.length) :=
    chained.snoc ⟨rfl, rfl, waiting, holds.below, holds.framed⟩
  refine ⟨⟨⟨r.packer.sequence, pending, packetOf o.session r.packer.sequence pending⟩, o.shouldDrop built.length⟩, ?_⟩
  have flush : r.flush o = if o.shouldDrop built.length then
      { r with
        packer := r.packer.finish.1
        packetsBuilt := built.length + 1
        packetsDropped := r.packetsDropped + 1
        drops := r.drops ++ [⟨r.packer.sequence, r.packer.count.setWidth 64, built.length⟩] }
      else
      { r with
        packer := r.packer.finish.1
        packetsBuilt := built.length + 1
        sent := r.sent ++ [packetOf o.session r.packer.sequence pending] } := by
    rw [Replayer.flush, if_neg (mt holds.empty_iff.mp waiting)]
    dsimp only
    rw [packet, Option.getD_some, session, count]
    rfl
  have behind : r.packer.finish.1.sequence = r.packer.sequence + .ofNat 64 pending.length :=
    congrArg (r.packer.sequence + ·) width
  have short' : ∀ x ∈ built ++ [(⟨⟨r.packer.sequence, pending, packetOf o.session r.packer.sequence pending⟩,
      o.shouldDrop built.length⟩ : Sent)], Short o x.packet.bytes := by
    intro x member
    rcases List.mem_append.mp member with old | new
    · exact short x old
    · rw [List.mem_singleton.mp new]
      exact size
  have taken' : ((built ++ [(⟨⟨r.packer.sequence, pending, packetOf o.session r.packer.sequence pending⟩,
      o.shouldDrop built.length⟩ : Sent)]).flatMap fun x => x.packet.messages) ++ [] = seen.filter (fits o) := by
    rw [List.append_nil, List.flatMap_append, List.flatMap_singleton]
    exact taken
  have flags' : ∀ i x, (built ++ [(⟨⟨r.packer.sequence, pending, packetOf o.session r.packer.sequence pending⟩,
      o.shouldDrop built.length⟩ : Sent)])[i]? = some x → x.dropped = o.shouldDrop i := by
    intro i x found
    rcases Nat.lt_or_ge i built.length with old | new
    · rw [List.getElem?_append_left old] at found
      exact flags i x found
    · rw [List.getElem?_append_right new, List.getElem?_singleton] at found
      split at found
      · next here =>
        rw [← Option.some.inj found]
        dsimp only
        congr 1
        omega
      · cases found
  rw [flush]
  cases lost : o.shouldDrop built.length with
  | true =>
    rw [lost] at last short' taken' flags'
    rw [if_pos rfl]
    refine ⟨⟨holds', session, maxPayload, behind ▸ last, short', taken', packed, large, ?_, flags', ?_, ?_⟩, rfl, rfl, rfl⟩
    · rw [List.length_append, List.length_singleton]
    · rw [List.filter_append, List.length_append, dropped]
      rfl
    · rw [Sent.arriving, List.filter_append, List.map_append, ← Sent.arriving, sent]
      exact (List.append_nil _).symm
  | false =>
    rw [lost] at last short' taken' flags'
    rw [if_neg (by decide)]
    refine ⟨⟨holds', session, maxPayload, behind ▸ last, short', taken', packed, large, ?_, flags', ?_, ?_⟩, rfl, rfl, rfl⟩
    · rw [List.length_append, List.length_singleton]
    · rw [List.filter_append, List.length_append, dropped]
      rfl
    · rw [Sent.arriving, List.filter_append, List.map_append, ← Sent.arriving, sent]
      rfl

/-- A message that is too large is counted and skipped. -/
theorem Packing.skip (packing : Packing o seen built pending r) {msg : List Byte} (large : fits o msg = false) :
    Packing o (seen ++ [msg]) built pending { r with tooLarge := r.tooLarge + 1 } := by
  have same : (seen ++ [msg]).filter (fits o) = seen.filter (fits o) := by
    rw [List.filter_append, List.filter_singleton, large]
    exact List.append_nil _
  refine { packing with taken := ?_, packed := ?_, large := ?_ }
  · rw [same]
    exact packing.taken
  · rw [same]
    exact packing.packed
  · have := packing.large
    rw [List.length_append, List.length_singleton]
    dsimp only
    omega

/-- An accepted message joins the packet being built. -/
theorem Packing.take (packing : Packing o seen built pending r) {msg : List Byte} (small : fits o msg = true)
    (framed : Framed msg) (accepted : (r.packer.tryAdd msg).2.accepted = true) :
    Packing o (seen ++ [msg]) built (pending ++ [msg])
      { r with packer := (r.packer.tryAdd msg).1, messagesPacked := r.messagesPacked + 1 } := by
  have more : (seen ++ [msg]).filter (fits o) = seen.filter (fits o) ++ [msg] := by
    rw [List.filter_append, List.filter_singleton, small]
    rfl
  rcases packing.holds.tryAdd framed with refused | ⟨p', stores, added, holds', session, sequence, size, _⟩
  · rw [refused] at accepted
    cases accepted
  · rw [added]
    refine { packing with
      holds := holds'
      session := session.trans packing.session
      maxPayload := size.trans packing.maxPayload
      chained := ?_, taken := ?_, packed := ?_, large := ?_ }
    · dsimp only
      rw [sequence]
      exact packing.chained
    · rw [more, ← packing.taken, List.append_assoc]
    · rw [more, List.length_append, List.length_singleton, ← packing.packed]
    · have := packing.large
      rw [List.length_append, List.length_singleton]
      dsimp only
      omega

/-! ## The loop -/

/-- In the loop, behind the messages `seen`. -/
def Looping (o : ReplayerOptions) (seen : List (List Byte)) (r : Replayer) : Prop :=
  ∃ built pending, Packing o seen built pending r ∧ r.messagesRead = seen.length ∧ r.refused = false ∧
    r.stoppedEarly = false ∧ (o.maxPackets ≠ 0 → built.length < o.maxPackets)

/-- Out of the loop with its last packet, behind the messages `seen` and one that was read in vain. -/
def Stopped (o : ReplayerOptions) (seen : List (List Byte)) (r : Replayer) : Prop :=
  ∃ built, Packing o seen built [] r ∧ r.messagesRead = seen.length + 1 ∧ r.refused = false ∧
    r.stoppedEarly = true ∧ o.maxPackets ≠ 0 ∧ built.length = o.maxPackets

theorem looping_new (o : ReplayerOptions) : Looping o [] { packer := .new o.session 1 o.maxPayload } :=
  ⟨[], [], packing_new o, rfl, rfl, rfl, Nat.pos_of_ne_zero⟩

variable {mem : Memory}

/-- **One round**: a packer that is empty behind a flush refuses nothing that fits. -/
theorem Looping.round (looping : Looping o seen r) {mv : MessageView} (framed : Framed (mv.bytes mem)) :
    (((onMessage o r mv).value mem).2 = false ∧ Looping o (seen ++ [mv.bytes mem]) ((onMessage o r mv).value mem).1) ∨
    (((onMessage o r mv).value mem).2 = true ∧ Stopped o seen ((onMessage o r mv).value mem).1) := by
  obtain ⟨built, pending, packing, read, refused, stopped, limit⟩ := looping
  have length : (mv.bytes mem).length = mv.size := length_bytesAt mem mv.data mv.size
  have counted : r.messagesRead + 1 = (seen ++ [mv.bytes mem]).length := by
    rw [List.length_append, List.length_singleton, read]
  have reading : Packing o seen built pending { r with messagesRead := r.messagesRead + 1 } := { packing with }
  have large : r.packer.tooLarge mv.size = !fits o (mv.bytes mem) := by
    simp only [Packer.tooLarge, fits, packing.maxPayload, length, gt_iff_lt, ← Nat.not_le, decide_not]
  unfold Replayer.onMessage
  dsimp only
  rw [large]
  cases small : fits o (mv.bytes mem) with
  | false => exact Or.inl ⟨rfl, built, pending, reading.skip small, counted, refused, stopped, limit⟩
  | true =>
    have message : (readBytes mv.data mv.size).value mem = mv.bytes mem := value_readBytes mem mv.data mv.size
    simp only [Bool.not_true, Bool.false_eq_true, if_false, value_bind, message]
    by_cases accepted : (r.packer.tryAdd (mv.bytes mem)).2.accepted = true
    · rw [accepted, if_neg (by decide)]
      exact Or.inl ⟨rfl, built, _, reading.take small framed accepted, counted, refused, stopped, limit⟩
    · have same : r.packer.tryAdd (mv.bytes mem) = (r.packer, {}) := by
        rcases packing.holds.tryAdd framed with refusal | ⟨p', stores, added, _⟩
        · exact refusal
        · rw [added] at accepted
          exact (accepted rfl).elim
      have waiting : pending ≠ [] := by
        rintro rfl
        exact accepted (packing.holds.tryAdd_empty (by rw [length, large, small]; rfl))
      rw [same]
      simp only [Bool.not_false, if_true]
      obtain ⟨x, flushed, read', stopped', refused'⟩ := reading.flush waiting
      generalize Replayer.flush o { r with messagesRead := r.messagesRead + 1 } = u at *
      have built' : u.packetsBuilt = built.length + 1 := by
        rw [flushed.count, List.length_append, List.length_singleton]
      by_cases last : o.maxPackets ≠ 0 ∧ u.packetsBuilt ≥ o.maxPackets
      · rw [if_pos last]
        have below := limit last.1
        refine Or.inr ⟨rfl, built ++ [x], { flushed with }, read'.trans (congrArg (· + 1) read), refused'.trans refused, rfl,
          last.1, ?_⟩
        have reached := last.2
        rw [List.length_append, List.length_singleton]
        omega
      · rw [if_neg last]
        have again : (u.packer.tryAdd (mv.bytes mem)).2.accepted = true := by
          apply flushed.holds.tryAdd_empty
          rw [Packer.tooLarge, flushed.maxPayload, decide_eq_false_iff_not, Nat.not_lt]
          exact of_decide_eq_true small
        rw [again, if_neg (by decide)]
        refine Or.inl ⟨rfl, built ++ [x], _, flushed.take small framed again, read'.trans counted, refused'.trans refused,
          stopped'.trans stopped, fun limited => ?_⟩
        rw [List.length_append, List.length_singleton]
        have notLast := fun enough => last ⟨limited, enough⟩
        omega

/-- The loop, to the end of the messages or to its last packet. -/
theorem Looping.rounds (looping : Looping o seen r) {mvs : List MessageView} (framed : ∀ mv ∈ mvs, Framed (mv.bytes mem)) :
    Looping o (seen ++ mvs.map (MessageView.bytes mem))
        (Runs.afterUntil (fun r mv => (onMessage o r mv).value mem) r mvs).1 ∨
      ∃ more rest, mvs.map (MessageView.bytes mem) = more ++ rest ∧
        Stopped o (seen ++ more) (Runs.afterUntil (fun r mv => (onMessage o r mv).value mem) r mvs).1 := by
  induction mvs generalizing seen r with
  | nil =>
    left
    rw [List.map_nil, List.append_nil]
    exact looping
  | cons mv mvs ih =>
    rw [Runs.afterUntil]
    rcases looping.round (framed mv List.mem_cons_self) with ⟨stays, looping'⟩ | ⟨leaves, stopped⟩
    · rw [if_neg (by rw [stays]; decide)]
      rcases ih looping' fun mv' later => framed mv' (List.mem_cons_of_mem _ later) with whole | ⟨more, rest, split, stopped⟩
      · left
        rwa [List.append_assoc] at whole
      · right
        refine ⟨mv.bytes mem :: more, rest, congrArg _ split, ?_⟩
        rwa [List.append_assoc] at stopped
    · rw [if_pos leaves]
      right
      exact ⟨[], _, rfl, by rwa [List.append_nil]⟩

/-! ## The end of the run -/

/-- The packets a run has built, each sent or dropped as the injector decided, and the end of session behind them. -/
structure Built (o : ReplayerOptions) (r : Replayer) (built : List Sent) : Prop where
  /-- They carry consecutive sequences from 1 on. -/
  chained : Chained o.session 1 built r.packer.packetSequence
  count : built.length = r.packetsBuilt
  packed : (built.flatMap fun x => x.packet.messages).length = r.messagesPacked
  dropped : (built.filter fun x => x.dropped).length = r.packetsDropped
  flags : ∀ i x, built[i]? = some x → x.dropped = o.shouldDrop i
  short : ∀ x ∈ built, Short o x.packet.bytes
  sent : r.sent = Sent.arriving built ++ [encodeHeader ⟨o.session, r.packer.packetSequence, kEndOfSession⟩]

/-- What a run does with the framed messages of its file. -/
structure Packs (o : ReplayerOptions) (messages : List (List Byte)) (r : Replayer) : Prop where
  /-- The packets carry, in order and once each, the messages that are not too large, or a prefix of these when the run
  stops at its last packet. -/
  packets : ∃ built, Built o r built ∧
    (r.stoppedEarly = false → (built.flatMap fun x => x.packet.messages) = messages.filter (fits o) ∧
      r.messagesRead = messages.length) ∧
    (r.stoppedEarly = true → (built.flatMap fun x => x.packet.messages) <+: messages.filter (fits o) ∧
      o.maxPackets ≠ 0 ∧ r.packetsBuilt = o.maxPackets)
  /-- No message that fits an empty packet is refused. -/
  accepted : r.refused = false
  limit : o.maxPackets ≠ 0 → r.packetsBuilt ≤ o.maxPackets
  short : ∀ packet ∈ r.sent, Short o packet
  packedAll : r.packedAll = true
  seqOk : r.seqOk = true

/-- Behind its last flush a run has built its packets; the end of session follows. -/
theorem Packing.ended (packing : Packing o seen built [] r) (read : r.messagesRead = seen.length) :
    ∃ r' : Replayer, r' = { r with
        packer := r.packer.endOfSession.1
        sent := r.sent ++ [r.packer.endOfSession.2.packet.getD []] } ∧ Built o r' built ∧
      (∀ packet ∈ r'.sent, Short o packet) ∧ r'.packedAll = true ∧ r'.seqOk = true ∧
      (built.flatMap fun x => x.packet.messages) = seen.filter (fits o) := by
  obtain ⟨packet, _⟩ := packing.holds.endOfSession
  have taken := packing.taken
  rw [List.append_nil] at taken
  have sent : r.sent ++ [r.packer.endOfSession.2.packet.getD []] =
      Sent.arriving built ++ [encodeHeader ⟨o.session, r.packer.sequence, kEndOfSession⟩] := by
    rw [packet, packing.sent, packing.session]
    rfl
  refine ⟨_, rfl, ⟨packing.chained, packing.count.symm, taken ▸ packing.packed.symm, packing.dropped.symm, packing.flags,
    packing.short, sent⟩, ?_, ?_, ?_, taken⟩
  · dsimp only
    rw [sent]
    intro packet member
    rcases List.mem_append.mp member with old | new
    · simp only [Sent.arriving, List.mem_map, List.mem_filter] at old
      obtain ⟨x, ⟨inside, _⟩, rfl⟩ := old
      exact packing.short x inside
    · rw [List.mem_singleton.mp new, Short, length_encodeHeader]
      unfold kHeaderSize
      omega
  · rw [Replayer.packedAll, beq_iff_eq]
    exact packing.large.trans read.symm
  · rw [Replayer.seqOk, beq_iff_eq]
    have total := packing.chained.total
    rw [taken, ← packing.packed] at total
    exact total

/-- The run ends with the file. -/
theorem Looping.close (looping : Looping o seen r) : Packs o seen (r.close o) := by
  obtain ⟨built, pending, packing, read, refused, stopped, limit⟩ := looping
  have flushed : ∃ built', Packing o seen built' [] (r.flush o) ∧ (r.flush o).messagesRead = seen.length ∧
      (r.flush o).refused = false ∧ (r.flush o).stoppedEarly = false ∧
      (o.maxPackets ≠ 0 → built'.length ≤ o.maxPackets) := by
    by_cases waiting : pending = []
    · subst waiting
      rw [packing.flush_empty]
      exact ⟨built, packing, read, refused, stopped, fun limited => (limit limited).le⟩
    · obtain ⟨x, packing', read', stopped', refused'⟩ := packing.flush waiting
      refine ⟨built ++ [x], packing', read'.trans read, refused'.trans refused, stopped'.trans stopped, fun limited => ?_⟩
      rw [List.length_append, List.length_singleton]
      exact limit limited
  obtain ⟨built', packing', read', refused', stopped', limit'⟩ := flushed
  obtain ⟨r', same, built'', short, packedAll, seqOk, taken⟩ := packing'.ended read'
  have close : r.close o = r' := by
    rw [Replayer.close, refused, if_neg (by decide), stopped, if_neg (by decide), same]
  have unchanged : r'.refused = false ∧ r'.stoppedEarly = false ∧ r'.messagesRead = seen.length := by
    rw [same]
    exact ⟨refused', stopped', read'⟩
  rw [close]
  refine ⟨⟨built', built'', fun _ => ⟨taken, unchanged.2.2⟩, fun early => ?_⟩, unchanged.1, fun limited => ?_, short, packedAll,
    seqOk⟩
  · rw [unchanged.2.1] at early
    cases early
  · rw [← built''.count]
    exact limit' limited

/-- The run ends with its last packet: the read count is undone, and nothing is left to flush. -/
theorem Stopped.close (stopped : Stopped o seen r) (rest : List (List Byte)) : Packs o (seen ++ rest) (r.close o) := by
  obtain ⟨built, packing, read, refused, early, limited, last⟩ := stopped
  have undone : Packing o seen built [] { r with messagesRead := r.messagesRead - 1 } := { packing with }
  have read' : r.messagesRead - 1 = seen.length := by omega
  obtain ⟨r', same, built', short, packedAll, seqOk, taken⟩ := undone.ended read'
  have close : r.close o = r' := by
    unfold Replayer.close
    rw [if_neg (by rw [refused]; decide)]
    dsimp only
    rw [if_pos early, undone.flush_empty, same]
  have unchanged : r'.refused = false ∧ r'.stoppedEarly = true := by
    rw [same]
    exact ⟨refused, early⟩
  have count : r'.packetsBuilt = o.maxPackets := by
    rw [← built'.count, last]
  rw [close]
  refine ⟨⟨built, built', fun whole => ?_, fun _ => ⟨?_, limited, count⟩⟩, unchanged.1, fun _ => count.le, short, packedAll,
    seqOk⟩
  · rw [unchanged.2] at whole
    cases whole
  · rw [taken, List.filter_append]
    exact List.prefix_append _ _

/-- **Every run** packs the framed messages of its file. -/
theorem run_packs (mem : Memory) (o : ReplayerOptions) (data size : Nat) :
    Packs o (parse (bytesAt mem data size)).1 ((run o data size).value mem) := by
  have start : (⟨data, size, 0⟩ : Framer).pos = 0 := rfl
  obtain ⟨whole, framed, _⟩ := parse_spec (bytesAt mem data size)
  have shown := viewsFrom_bytes whole.symm
  obtain ⟨loop, _⟩ := Framer.walkUntil_value mem (Replayer.onMessage o) { packer := .new o.session 1 o.maxPayload } start
  have final := congrArg Prod.fst loop
  rw [Framer.handedOut_eq start] at final
  dsimp only at final
  have each : ∀ mv ∈ viewsFrom data (parse (bytesAt mem data size)).1, Framed (mv.bytes mem) := by
    intro mv member
    apply framed
    rw [← shown]
    exact List.mem_map_of_mem member
  have rounds := (looping_new o).rounds each
  simp only [run, value_bind, value_pure, final]
  rcases rounds with looping | ⟨more, rest, split, stopped⟩
  · rw [shown, List.nil_append] at looping
    exact looping.close
  · rw [shown] at split
    have packs := stopped.close rest
    rw [List.nil_append, ← split] at packs
    exact packs

end Replayer
end Nts.Apps
