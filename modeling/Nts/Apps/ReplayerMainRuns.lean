import Nts.Apps.ReplayerMain

/-!
# What `main` of the replayer logs and sends

Without its sender, its injector and its log the run is that of `Replayer`, with the
injector's decisions for the packets it builds. `Logged` is the loop invariant for the rest: a row of the
log for each packet, the header it gives is that of the datagram, and what left is what `sendto` took whole.
-/

namespace Nts.Mold
open Itch

namespace Packer
variable (p : Packer)

/-- A message that is taken adds one to the count; another changes nothing. -/
theorem tryAdd_count (below : p.count.toNat < 0xFFFF) (msg : List Byte) : p.tryAdd msg = (p, {}) ∨
    (p.tryAdd msg).2.accepted = true ∧ (p.tryAdd msg).1.session = p.session ∧ (p.tryAdd msg).1.sequence = p.sequence ∧
      (p.tryAdd msg).1.count.toNat = p.count.toNat + 1 ∧ (p.tryAdd msg).1.count.toNat < 0xFFFF := by
  rw [tryAdd]
  dsimp only
  split
  · exact Or.inl rfl
  · split
    · exact Or.inl rfl
    · next free =>
      have notLast : p.count.toNat ≠ 0xFFFE := fun last => free (BitVec.eq_of_toNat_eq last)
      have more : (p.count + 1).toNat = p.count.toNat + 1 := by
        rw [BitVec.toNat_add, show (1 : BitVec 16).toNat = 1 from rfl]
        exact Nat.mod_eq_of_lt (by omega)
      exact Or.inr ⟨rfl, rfl, rfl, more, more.trans_lt (by omega)⟩

/-- A packet begins with its header. -/
theorem take_finish : (p.finish.2.packet.getD []).take kHeaderSize = encodeHeader ⟨p.session, p.sequence, p.count⟩ := by
  rw [finish, Option.getD_some, List.take_take, Nat.min_eq_left (Nat.le_add_right _ _)]
  exact List.take_left' (length_encodeHeader _)

theorem take_endOfSession :
    (p.endOfSession.2.packet.getD []).take kHeaderSize = encodeHeader ⟨p.session, p.sequence, kEndOfSession⟩ := by
  rw [endOfSession, Option.getD_some, List.take_take, Nat.min_self]
  exact List.take_left' (length_encodeHeader _)

end Packer
end Nts.Mold

namespace Nts.Apps
open Reading Itch Mold

namespace ScheduleEntry

/-- Rows that follow one another from `q` up to `e`, none of them empty. -/
def Rows : BitVec 64 → List ScheduleEntry → BitVec 64 → Prop
  | q, [], e => q = e
  | q, row :: rows, e => (row.sequence = q ∧ row.count ≠ 0) ∧ Rows (q + row.count.setWidth 64) rows e

theorem Rows.snoc {q r : BitVec 64} {rows : List ScheduleEntry} (follow : Rows q rows r) {row : ScheduleEntry}
    (last : row.sequence = r ∧ row.count ≠ 0) : Rows q (rows ++ [row]) (r + row.count.setWidth 64) := by
  induction rows generalizing q with
  | nil =>
    obtain rfl : q = r := follow
    exact ⟨last, rfl⟩
  | cons _ rows ih => exact ⟨follow.1, ih follow.2⟩

/-- The drop log of some rows, the first of them of the packet `index`. -/
def dropLog : Nat → List ScheduleEntry → List DropEntry
  | _, [] => []
  | index, row :: rows =>
    if row.dropped then ⟨row.sequence, row.count.setWidth 64, index⟩ :: dropLog (index + 1) rows else dropLog (index + 1) rows

theorem dropLog_snoc (index : Nat) (rows : List ScheduleEntry) (row : ScheduleEntry) :
    dropLog index (rows ++ [row]) =
      dropLog index rows ++ if row.dropped then [⟨row.sequence, row.count.setWidth 64, index + rows.length⟩] else [] := by
  induction rows generalizing index with
  | nil => rfl
  | cons first rows ih =>
    rw [List.cons_append, dropLog, dropLog, ih, List.length_cons, Nat.add_right_comm, Nat.add_assoc]
    split
    · rfl
    · rfl

theorem length_dropLog (index : Nat) (rows : List ScheduleEntry) :
    (dropLog index rows).length = (rows.filter fun row => row.dropped).length := by
  induction rows generalizing index with
  | nil => rfl
  | cons row rows ih =>
    rw [dropLog, List.filter_cons]
    split
    · rw [List.length_cons, List.length_cons, ih]
    · exact ih _

/-- The rows that say dropped are as many as the decisions that do. -/
theorem count_dropped {rows : List ScheduleEntry} {decides : Nat → Bool}
    (flags : ∀ i row, rows[i]? = some row → row.dropped = decides i) :
    (rows.filter fun row => row.dropped).length = Nat.count (fun i => decides i) rows.length := by
  induction rows using List.reverseRecOn with
  | nil => rfl
  | append_singleton rows row ih =>
    have front : ∀ i row, rows[i]? = some row → row.dropped = decides i := fun i row found =>
      flags i row (by rw [List.getElem?_append_left (List.getElem?_eq_some_iff.mp found).1, found])
    have last : row.dropped = decides rows.length := flags rows.length row List.getElem?_concat_length
    rw [List.filter_append, List.length_append, ih front, List.length_append, List.length_singleton, Nat.count_succ,
      List.filter_singleton, last]
    cases decides rows.length <;> rfl

end ScheduleEntry

namespace ReplayerMain
open ScheduleEntry

/-- The datagrams that leave, where call `k` is the first of them. -/
def gone (e : Environment) : Nat → List (List Byte) → List (List Byte)
  | _, [] => []
  | k, pkt :: pkts => if e.sendto k = pkt.length then pkt :: gone e (k + 1) pkts else gone e (k + 1) pkts

theorem gone_snoc (e : Environment) (k : Nat) (pkts : List (List Byte)) (pkt : List Byte) :
    gone e k (pkts ++ [pkt]) = gone e k pkts ++ if e.sendto (k + pkts.length) = pkt.length then [pkt] else [] := by
  induction pkts generalizing k with
  | nil => rfl
  | cons first pkts ih =>
    rw [List.cons_append, gone, gone, ih, List.length_cons, Nat.add_right_comm, Nat.add_assoc]
    split
    · rfl
    · rfl

theorem sublist_gone (e : Environment) (k : Nat) (pkts : List (List Byte)) : (gone e k pkts).Sublist pkts := by
  induction pkts generalizing k with
  | nil => exact .slnil
  | cons first pkts ih =>
    rw [gone]
    split
    · exact (ih _).cons_cons _
    · exact (ih _).cons _

/-- Everything leaves exactly when every call takes its datagram whole. -/
theorem gone_all (e : Environment) (k : Nat) (pkts : List (List Byte)) :
    (gone e k pkts).length = pkts.length ↔ ∀ i pkt, pkts[i]? = some pkt → e.sendto (k + i) = pkt.length := by
  induction pkts generalizing k with
  | nil => exact iff_of_true rfl fun i pkt found => by cases found
  | cons first pkts ih =>
    rw [gone]
    by_cases whole : e.sendto k = first.length
    · rw [if_pos whole, List.length_cons, List.length_cons, Nat.add_right_cancel_iff, ih]
      constructor
      · intro all i pkt found
        cases i with
        | zero =>
          obtain rfl : first = pkt := Option.some.inj found
          exact whole
        | succ i =>
          rw [← all i pkt found]
          congr 1
          omega
      · intro all i pkt found
        rw [← all (i + 1) pkt found]
        congr 1
        omega
    · rw [if_neg whole]
      have short := (sublist_gone e (k + 1) pkts).length_le
      refine iff_of_false (fun same => ?_) fun all => whole (all 0 first rfl)
      rw [List.length_cons] at same
      omega

/-- The sender's counters, and what left. -/
structure Wired (e : Environment) (m : ReplayerMain) : Prop where
  onWire : m.onWire = gone e 0 m.sent
  packets : m.sender.packets = m.onWire.length
  bytes : m.sender.bytes = (m.onWire.map List.length).sum
  calls : m.sender.packets + m.sender.failures = m.sent.length

/-- The rows of the packets built so far, whether or not they are kept, and what else the run has counted. -/
structure Logged (o : MainOptions) (e : Environment) (rows : List ScheduleEntry) (m : ReplayerMain) : Prop where
  session : m.packer.session = makeSession o.session
  gaps : m.gaps = o.gaps.before m.packetsBuilt
  schedule : m.schedule = if o.scheduleLog then rows else []
  count : rows.length = m.packetsBuilt
  follow : Rows 1 rows m.packer.sequence
  times : ∀ i row, rows[i]? = some row → row.scheduledNs = e.due i ∧ row.actualNs = e.now i ∧ row.dropped = o.gaps.drops i
  drops : m.drops = dropLog 0 rows
  dropped : m.packetsDropped = m.drops.length
  below : m.packer.count.toNat < 0xFFFF
  packed : (rows.map fun row => row.count.toNat).sum + m.packer.count.toNat = m.messagesPacked
  headers : (m.sent.map (List.take kHeaderSize)) =
    (rows.filter fun row => !row.dropped).map fun row => encodeHeader ⟨makeSession o.session, row.sequence, row.count⟩
  wired : Wired e m

variable {o : MainOptions} {e : Environment} {rows : List ScheduleEntry} {m : ReplayerMain}

@[simp] theorem send_toReplayer (pkt : List Byte) :
    (m.send e pkt).toReplayer = { m.toReplayer with sent := m.sent ++ [pkt] } := rfl

theorem Wired.send (wired : Wired e m) (pkt : List Byte) : Wired e (m.send e pkt) := by
  obtain ⟨onWire, packets, bytes, calls⟩ := wired
  rw [ReplayerMain.send, UdpSender.send_eq]
  by_cases whole : e.sendto m.sent.length = pkt.length
  · rw [if_pos whole]
    refine ⟨?_, ?_, ?_, ?_⟩
    · dsimp only
      rw [gone_snoc, Nat.zero_add, if_pos whole, onWire, if_pos rfl]
    · simp only [if_true, List.length_append, List.length_singleton, packets]
    · simp only [if_true, List.map_append, List.sum_append, List.map_singleton, List.sum_singleton, bytes]
    · dsimp only
      rw [List.length_append, List.length_singleton]
      omega
  · rw [if_neg whole]
    refine ⟨?_, packets, bytes, ?_⟩
    · dsimp only
      rw [gone_snoc, Nat.zero_add, if_neg whole, onWire, List.append_nil]
      rfl
    · dsimp only
      rw [List.length_append, List.length_singleton]
      omega

/-- Without failures everything leaves. -/
theorem Wired.onWire_of_failures (wired : Wired e m) (failures : m.sender.failures = 0) : m.onWire = m.sent := by
  have calls := wired.calls
  rw [failures, Nat.add_zero, wired.packets, wired.onWire] at calls
  rw [wired.onWire]
  exact (sublist_gone e 0 m.sent).eq_of_length calls

/-- `flush` of an empty packet does nothing. -/
theorem flush_empty (empty : m.packer.empty = true) : m.flush o e = m := if_pos empty

/-- The row of the packet being built. -/
def row (o : MainOptions) (e : Environment) (m : ReplayerMain) : ScheduleEntry :=
  ⟨m.packer.sequence, m.packer.count, e.due m.packetsBuilt, e.now m.packetsBuilt, o.gaps.drops m.packetsBuilt⟩

/-- `flush` of a packet, by the injector's decision. -/
theorem flush_eq (pending : m.packer.empty = false) (gaps : m.gaps = o.gaps.before m.packetsBuilt) :
    m.flush o e =
      let m' := { m with
        packer := m.packer.finish.1, packetsBuilt := m.packetsBuilt + 1, gaps := o.gaps.before (m.packetsBuilt + 1)
        schedule := if o.scheduleLog then m.schedule ++ [m.row o e] else m.schedule }
      if o.gaps.drops m.packetsBuilt then { m' with
        packetsDropped := m.packetsDropped + 1
        drops := m.drops ++ [⟨m.packer.sequence, m.packer.count.setWidth 64, m.packetsBuilt⟩] }
      else m'.send e (m.packer.finish.2.packet.getD []) := by
  have decision : m.gaps.shouldDrop (.ofNat 64 m.packetsBuilt) =
      (o.gaps.before (m.packetsBuilt + 1), o.gaps.drops m.packetsBuilt) := by
    rw [GapInjector.before_succ, gaps]
    rfl
  rw [flush, if_neg (Bool.eq_false_iff.mp pending)]
  dsimp only [row]
  rw [decision]
  dsimp only
  cases o.gaps.drops m.packetsBuilt <;> cases o.scheduleLog <;> simp only [Bool.false_eq_true, if_false, if_true] <;> rfl

/-- Without its log and its sender `flush` is that of the loop. -/
theorem flush_toReplayer (gaps : m.gaps = o.gaps.before m.packetsBuilt) :
    (m.flush o e).toReplayer = m.toReplayer.flush o.loop := by
  cases empty : m.packer.empty with
  | true => rw [flush_empty empty, Replayer.flush, if_pos empty]
  | false =>
    have waiting : ¬ m.packer.empty = true := Bool.eq_false_iff.mp empty
    rw [flush_eq empty gaps, Replayer.flush, if_neg waiting]
    dsimp only
    by_cases lost : o.gaps.drops m.packetsBuilt = true
    · rw [if_pos lost]
      exact (if_pos lost).symm
    · rw [if_neg lost]
      exact (if_neg lost).symm

/-- `flush` logs the packet it builds, whether it sends or drops it. -/
theorem Logged.flush (logged : Logged o e rows m) : ∃ more, Logged o e (rows ++ more) (m.flush o e) := by
  cases empty : m.packer.empty with
  | true => exact ⟨[], by rwa [flush_empty empty, List.append_nil]⟩
  | false =>
    have counted : m.packer.count ≠ 0 := by
      rw [Packer.empty, beq_eq_false_iff_ne] at empty
      exact empty
    rw [flush_eq empty logged.gaps]
    obtain ⟨session, gaps, schedule, count, follow, times, drops, dropped, below, packed, headers, wired⟩ := logged
    have fresh : (0 : BitVec 16).toNat < 0xFFFF := by decide
    have sum : ((rows ++ [m.row o e]).map fun row => row.count.toNat).sum + (0 : BitVec 16).toNat = m.messagesPacked := by
      rw [List.map_append, List.sum_append, List.map_singleton, List.sum_singleton]
      exact packed
    have kept : (if o.scheduleLog then m.schedule ++ [m.row o e] else m.schedule) =
        if o.scheduleLog then rows ++ [m.row o e] else [] := by
      rw [schedule]
      split
      · rfl
      · rfl
    have behind : (rows ++ [m.row o e]).length = m.packetsBuilt + 1 := by
      rw [List.length_append, List.length_singleton, count]
    have timed : ∀ i row, (rows ++ [m.row o e])[i]? = some row →
        row.scheduledNs = e.due i ∧ row.actualNs = e.now i ∧ row.dropped = o.gaps.drops i := by
      intro i row found
      rcases Nat.lt_or_ge i rows.length with old | new
      · rw [List.getElem?_append_left old] at found
        exact times i row found
      · rw [List.getElem?_append_right new, List.getElem?_singleton] at found
        split at found
        · next here =>
          obtain rfl : i = m.packetsBuilt := by omega
          rw [← Option.some.inj found]
          exact ⟨rfl, rfl, rfl⟩
        · cases found
    refine ⟨[m.row o e], ?_⟩
    have log := dropLog_snoc 0 rows (m.row o e)
    rw [Nat.zero_add, count] at log
    cases lost : o.gaps.drops m.packetsBuilt with
    | true =>
      rw [if_pos rfl]
      rw [show (m.row o e).dropped = true from lost, if_pos rfl] at log
      refine ⟨session, rfl, kept, behind, follow.snoc ⟨rfl, counted⟩, timed, ?_, ?_, fresh, sum, ?_,
        { wired with }⟩
      · rw [log, ← drops]
        rfl
      · rw [List.length_append, List.length_singleton, ← dropped]
      · rw [List.filter_append, List.filter_cons_of_neg (by rw [show (m.row o e).dropped = true from lost]; decide),
          List.filter_nil, List.append_nil]
        exact headers
    | false =>
      rw [if_neg (by decide)]
      rw [show (m.row o e).dropped = false from lost, if_neg (by decide), List.append_nil] at log
      refine ⟨session, rfl, kept, behind, follow.snoc ⟨rfl, counted⟩, timed, drops.trans log.symm, dropped, fresh, sum, ?_, ?_⟩
      · rw [List.filter_append, List.filter_cons_of_pos (by rw [show (m.row o e).dropped = false from lost]; decide),
          List.filter_nil, List.map_append, ← headers]
        simp only [send_toReplayer, List.map_append, List.map_singleton, Packer.take_finish, session]
        rfl
      · apply Wired.send
        exact ⟨wired.onWire, wired.packets, wired.bytes, wired.calls⟩

/-- A message that is taken is counted in the packet. -/
theorem Logged.take (logged : Logged o e rows m) {msg : List Byte} (accepted : (m.packer.tryAdd msg).2.accepted = true) :
    Logged o e rows { m with packer := (m.packer.tryAdd msg).1, messagesPacked := m.messagesPacked + 1 } := by
  rcases m.packer.tryAdd_count logged.below msg with refused | ⟨_, session, sequence, more, below⟩
  · rw [refused] at accepted
    cases accepted
  · refine { logged with
      session := session.trans logged.session, below, follow := ?_, packed := ?_, wired := { logged.wired with } }
    · dsimp only
      rw [sequence]
      exact logged.follow
    · dsimp only
      rw [more, ← Nat.add_assoc, logged.packed]

/-! ## The run -/

variable {mem : Memory}

/-- **One round** does to the loop's variables what it does in `Replayer`, and keeps the log. -/
theorem Logged.round (logged : Logged o e rows m) (mv : MessageView) :
    (((onMessage o e m mv).value mem).1.toReplayer = ((Replayer.onMessage o.loop m.toReplayer mv).value mem).1 ∧
      ∃ rows', Logged o e rows' ((onMessage o e m mv).value mem).1) ∧
    ((onMessage o e m mv).value mem).2 = ((Replayer.onMessage o.loop m.toReplayer mv).value mem).2 := by
  have reading : Logged o e rows { m with messagesRead := m.messagesRead + 1 } := { logged with wired := { logged.wired with } }
  unfold onMessage Replayer.onMessage
  dsimp only
  by_cases large : m.packer.tooLarge mv.size = true
  · rw [if_pos large, if_pos large]
    exact ⟨⟨rfl, rows, { logged with wired := { logged.wired with } }⟩, rfl⟩
  · rw [if_neg large, if_neg large]
    simp only [value_bind, value_readBytes]
    generalize bytesAt mem mv.data mv.size = msg
    rcases m.packer.tryAdd_count logged.below msg with refused | ⟨accepted, _⟩
    · rw [refused]
      simp only [Bool.not_false, if_true]
      have same := flush_toReplayer (o := o) (e := e) reading.gaps
      obtain ⟨more, flushed⟩ := reading.flush
      generalize ReplayerMain.flush o e { m with messagesRead := m.messagesRead + 1 } = u at *
      generalize Replayer.flush o.loop { m.toReplayer with messagesRead := m.messagesRead + 1 } = r at *
      obtain rfl : u.toReplayer = r := same
      rw [show o.loop.maxPackets = o.maxPackets from rfl]
      by_cases last : o.maxPackets ≠ 0 ∧ u.packetsBuilt ≥ o.maxPackets
      · rw [if_pos last, if_pos last]
        exact ⟨⟨rfl, _, { flushed with wired := { flushed.wired with } }⟩, rfl⟩
      · rw [if_neg last, if_neg last]
        rcases u.packer.tryAdd_count flushed.below msg with again | ⟨accepted, _⟩
        · rw [again]
          exact ⟨⟨rfl, _, { flushed with wired := { flushed.wired with } }⟩, rfl⟩
        · rw [accepted, if_neg (by decide), if_neg (by decide)]
          exact ⟨⟨rfl, _, flushed.take accepted⟩, rfl⟩
    · rw [accepted, if_neg (by decide), if_neg (by decide)]
      exact ⟨⟨rfl, rows, reading.take accepted⟩, rfl⟩

/-- What a run has logged and sent: `rows` for the packets it built, and the end of session behind them. -/
structure Ran (o : MainOptions) (e : Environment) (rows : List ScheduleEntry) (m : ReplayerMain) : Prop where
  schedule : m.schedule = if o.scheduleLog then rows else []
  count : rows.length = m.packetsBuilt
  /-- The rows give the packets' sequences and counts, from 1 on and without a hole. -/
  follow : Rows 1 rows m.packer.packetSequence
  times : ∀ i row, rows[i]? = some row → row.scheduledNs = e.due i ∧ row.actualNs = e.now i ∧ row.dropped = o.gaps.drops i
  drops : m.drops = dropLog 0 rows
  dropped : m.packetsDropped = m.drops.length
  packed : (rows.map fun row => row.count.toNat).sum = m.messagesPacked
  /-- What is sent are the packets that are not dropped, in order, and the end of session. -/
  headers : m.sent.map (List.take kHeaderSize) =
    ((rows.filter fun row => !row.dropped).map fun row => encodeHeader ⟨makeSession o.session, row.sequence, row.count⟩) ++
      [encodeHeader ⟨makeSession o.session, m.packer.packetSequence, kEndOfSession⟩]
  wired : Wired e m
  /-- Every packet built, and the end of session, is sent, failed or dropped. -/
  accounts : m.sender.packets + m.sender.failures + m.packetsDropped = m.packetsBuilt + 1

/-- A flush leaves an empty packet. -/
theorem flush_count (gaps : m.gaps = o.gaps.before m.packetsBuilt) : (m.flush o e).packer.count = 0 := by
  cases empty : m.packer.empty with
  | true =>
    rw [flush_empty empty]
    exact eq_of_beq empty
  | false =>
    rw [flush_eq empty gaps]
    dsimp only
    split
    · rfl
    · rfl

/-- The last packet and the end of session. -/
theorem Logged.ended (logged : Logged o e rows m) : ∃ rows', Ran o e rows'
    ({ m.flush o e with packer := (m.flush o e).packer.endOfSession.1 }.send e
      ((m.flush o e).packer.endOfSession.2.packet.getD [])) := by
  have fresh := flush_count (o := o) (e := e) logged.gaps
  obtain ⟨more, flushed⟩ := logged.flush
  generalize m.flush o e = u at *
  generalize rows ++ more = rows at *
  have header : (u.packer.endOfSession.2.packet.getD []).take kHeaderSize =
      encodeHeader ⟨makeSession o.session, u.packer.sequence, kEndOfSession⟩ := by
    rw [Packer.take_endOfSession, flushed.session]
  have wired : Wired e ({ u with packer := u.packer.endOfSession.1 }.send e (u.packer.endOfSession.2.packet.getD [])) := by
    apply Wired.send
    exact { flushed.wired with }
  have lengths := congrArg List.length flushed.headers
  rw [List.length_map, List.length_map] at lengths
  have parts := List.length_eq_length_filter_add (l := rows) fun row => row.dropped
  have calls := wired.calls
  rw [send_toReplayer, List.length_append, List.length_singleton, lengths] at calls
  refine ⟨rows, flushed.schedule, flushed.count, flushed.follow, flushed.times, flushed.drops, flushed.dropped, ?_, ?_,
    wired, ?_⟩
  · have packed := flushed.packed
    rw [fresh] at packed
    exact packed
  · rw [send_toReplayer, List.map_append, List.map_singleton, header, flushed.headers]
    rfl
  · change _ + u.packetsDropped = u.packetsBuilt + 1
    rw [calls, flushed.dropped, flushed.drops, length_dropLog, ← flushed.count]
    omega

/-- Behind the loop the variables are those of `Replayer` too. -/
theorem Logged.close (logged : Logged o e rows m) (kept : m.refused = false) :
    (m.close o e).toReplayer = m.toReplayer.close o.loop ∧ ∃ rows', Ran o e rows' (m.close o e) := by
  have undone : Logged o e rows { m with messagesRead := m.messagesRead - 1 } := { logged with wired := { logged.wired with } }
  unfold ReplayerMain.close Replayer.close
  rw [if_neg (Bool.eq_false_iff.mp kept), if_neg (Bool.eq_false_iff.mp kept)]
  dsimp only
  by_cases early : m.stoppedEarly = true
  · have same := flush_toReplayer (o := o) (e := e) undone.gaps
    rw [if_pos early, if_pos early]
    exact ⟨by rw [← same]; rfl, undone.ended⟩
  · have same := flush_toReplayer (o := o) (e := e) logged.gaps
    rw [if_neg early, if_neg early]
    exact ⟨by rw [← same]; rfl, logged.ended⟩

theorem logged_new (o : MainOptions) (e : Environment) :
    Logged o e [] { packer := .new (makeSession o.session) 1 o.maxPayload, gaps := o.gaps } where
  session := rfl
  gaps := rfl
  schedule := (ite_self []).symm
  count := rfl
  follow := rfl
  times := fun i row found => by cases found
  drops := rfl
  dropped := rfl
  below := (by decide : (0 : BitVec 16).toNat < 0xFFFF)
  packed := rfl
  headers := rfl
  wired := ⟨rfl, rfl, rfl, rfl⟩

/-- **A run** is a run of `Replayer`, logged. -/
theorem run_logged (mem : Memory) (o : MainOptions) (e : Environment) (data size : Nat) :
    ((run o e data size).value mem).toReplayer = (Replayer.run o.loop data size).value mem ∧
      ∃ rows, Ran o e rows ((run o e data size).value mem) := by
  have start : (⟨data, size, 0⟩ : Framer).pos = 0 := rfl
  obtain ⟨loop, _⟩ := Framer.walkUntil_value mem (onMessage o e)
    { packer := .new (makeSession o.session) 1 o.maxPayload, gaps := o.gaps } start
  obtain ⟨loop', _⟩ := Framer.walkUntil_value mem (Replayer.onMessage o.loop)
    { packer := .new (makeSession o.session) 1 o.maxPayload } start
  have each : ∀ (m : ReplayerMain) (r : Replayer), ∀ mv ∈ Framer.handedOut mem ⟨data, size, 0⟩,
      (m.toReplayer = r ∧ ∃ rows, Logged o e rows m) →
      (((onMessage o e m mv).value mem).1.toReplayer = ((Replayer.onMessage o.loop r mv).value mem).1 ∧
        ∃ rows, Logged o e rows ((onMessage o e m mv).value mem).1) ∧
      ((onMessage o e m mv).value mem).2 = ((Replayer.onMessage o.loop r mv).value mem).2 := by
    rintro m r mv _ ⟨rfl, rows, logged⟩
    exact logged.round mv
  obtain ⟨⟨same, rows, logged⟩, _⟩ := Runs.afterUntil_related (R := fun m r => m.toReplayer = r ∧ ∃ rows, Logged o e rows m)
    each ⟨rfl, [], logged_new o e⟩
  rw [← congrArg Prod.fst loop, ← congrArg Prod.fst loop'] at same
  rw [← congrArg Prod.fst loop] at logged
  have accepted := (Replayer.run_packs mem o.loop data size).accepted
  have whole : (Replayer.run o.loop data size).value mem = (((Framer.walkUntil (Replayer.onMessage o.loop) ⟨data, size, 0⟩
      { packer := .new (makeSession o.session) 1 o.maxPayload }).value mem).1).close o.loop := by
    simp only [Replayer.run, value_bind, value_pure]
    rfl
  simp only [run, value_bind, value_pure]
  rw [whole, ← same]
  rw [whole, ← same] at accepted
  generalize ((Framer.walkUntil (onMessage o e) ⟨data, size, 0⟩
      { packer := .new (makeSession o.session) 1 o.maxPayload, gaps := o.gaps }).value mem).1 = m at *
  -- a refusal in the loop would show in the result
  have kept : m.refused = false := by
    cases refused : m.refused with
    | false => rfl
    | true =>
      rw [Replayer.close, if_pos refused, refused] at accepted
      exact accepted
  exact logged.close kept

/-- The sender counts every datagram that `sendto` did not take whole, and nothing else goes wrong. -/
theorem exitCode_eq_zero {opts : ReplayerOptions} {msgs : List (List Byte)} (packs : Replayer.Packs opts msgs m.toReplayer)
    (ran : Ran o e rows m) : m.exitCode = 0 ↔ ∀ i pkt, m.sent[i]? = some pkt → e.sendto i = pkt.length := by
  have all := gone_all e 0 m.sent
  simp only [Nat.zero_add] at all
  have calls := ran.wired.calls
  rw [exitCode, packs.accepted, packs.packedAll, packs.seqOk, ← all, ← ran.wired.onWire, ← ran.wired.packets]
  simp only [Bool.false_eq_true, if_false, Bool.true_and, beq_iff_eq]
  split
  · omega
  · omega

end ReplayerMain

/-- What `main` does with a file, for all its options and in every environment. -/
structure ReplayerMains (mem : Memory) (o : MainOptions) (e : Environment) (data size : Nat) (m : ReplayerMain) : Prop where
  packs : Replayer.Packs o.loop (parse (bytesAt mem data size)).1 m.toReplayer
  ran : ∃ rows, ReplayerMain.Ran o e rows m
  /-- The injector loses what it decides to lose, one in `n` where it is told so. -/
  injected : m.packetsDropped = Nat.count (fun i => o.gaps.drops i) m.packetsBuilt
  everyNth : o.dropEvery ≠ 0 → m.packetsBuilt < 2 ^ 64 → m.packetsDropped = m.packetsBuilt / o.dropEvery.toNat
  /-- It succeeds exactly when `sendto` took every datagram whole. -/
  exit : m.exitCode = 0 ↔ ∀ i pkt, m.sent[i]? = some pkt → e.sendto i = pkt.length

/-- **`main` of the replayer**, over every file and all options with which the packer's buffer, of
`kHeaderSize + maxPayload` bytes without a wrap, can be allocated. -/
theorem replayer_main (mem : Memory) (o : MainOptions) (e : Environment) (data size : Nat) :
    ReplayerMains mem o e data size ((ReplayerMain.run o e data size).value mem) := by
  obtain ⟨same, rows, ran⟩ := ReplayerMain.run_logged mem o e data size
  have packs := Replayer.run_packs mem o.loop data size
  rw [← same] at packs
  generalize (ReplayerMain.run o e data size).value mem = m at *
  have injected : m.packetsDropped = Nat.count (fun i => o.gaps.drops i) m.packetsBuilt := by
    rw [ran.dropped, ran.drops, ScheduleEntry.length_dropLog, ← ran.count]
    exact ScheduleEntry.count_dropped fun i row found => (ran.times i row found).2.2
  refine ⟨packs, ⟨rows, ran⟩, injected, fun every small => ?_, ReplayerMain.exitCode_eq_zero packs ran⟩
  have nth : o.gaps = .everyNth o.dropEvery := if_pos every
  rw [injected, nth, GapInjector.count_everyNth small]

end Nts.Apps
