import Nts.Mold.Decoder

/-!
# What one packet does

`Outcome` lists everything a call of `on_packet` can do, each case with the condition on the
packet and the state before. Every property of a decoder is derived from it.
-/

namespace Nts.Mold
open Reading Itch

/-! ## The body of a packet -/

namespace Arrival

/-- The body is exactly as many blocks as the header says. -/
def Whole (a : Arrival) : Prop :=
  ∃ ms : List (List Byte), (∀ m ∈ ms, Framed m) ∧ ms.length = a.header.messageCount.toNat ∧ a.body = ms.flatMap block

theorem whole_iff (a : Arrival) :
    a.Whole ↔ (parse a.body).2 = [] ∧ (parse a.body).1.length = a.header.messageCount.toNat := by
  constructor
  · intro ⟨ms, framed, length, body⟩
    rw [body, parse_blocks framed]
    exact ⟨rfl, length⟩
  · intro ⟨nothing, length⟩
    obtain ⟨whole, framed, _⟩ := parse_spec a.body
    rw [nothing, List.append_nil] at whole
    exact ⟨(parse a.body).1, framed, length, whole.symm⟩

instance (a : Arrival) : Decidable a.Whole := decidable_of_iff _ a.whole_iff.symm

/-- The messages of a whole packet. -/
def messages (a : Arrival) : List (List Byte) := (parse a.body).1

theorem length_messages {a : Arrival} (whole : a.Whole) : a.messages.length = a.header.messageCount.toNat :=
  (a.whole_iff.mp whole).2

/-- The body is blocks, and the header says how many, modulo 2^32: the first walk counts them in 32 bits. -/
def Passes (a : Arrival) : Prop :=
  ∃ ms : List (List Byte), (∀ m ∈ ms, Framed m) ∧ ms.length % 2 ^ 32 = a.header.messageCount.toNat ∧ a.body = ms.flatMap block

theorem passes_iff (a : Arrival) :
    a.Passes ↔ (parse a.body).2 = [] ∧ a.messages.length % 2 ^ 32 = a.header.messageCount.toNat := by
  constructor
  · intro ⟨ms, framed, length, body⟩
    rw [messages, body, parse_blocks framed]
    exact ⟨rfl, length⟩
  · intro ⟨nothing, length⟩
    obtain ⟨whole, framed, _⟩ := parse_spec a.body
    rw [nothing, List.append_nil] at whole
    exact ⟨(parse a.body).1, framed, length, whole.symm⟩

instance (a : Arrival) : Decidable a.Passes := decidable_of_iff _ a.passes_iff.symm

theorem Passes.body {a : Arrival} (passes : a.Passes) : a.body = a.messages.flatMap block := by
  obtain ⟨blocks, _⟩ := parse_spec a.body
  rw [(a.passes_iff.mp passes).1, List.append_nil] at blocks
  exact blocks.symm

/-- What is counted exactly is counted in 32 bits. -/
theorem Whole.passes {a : Arrival} (whole : a.Whole) : a.Passes := by
  obtain ⟨ms, framed, length, body⟩ := whole
  have narrow := a.header.messageCount.isLt
  exact ⟨ms, framed, by rw [length, Nat.mod_eq_of_lt (by omega)], body⟩

/-- If the packet passes, it has exactly as many blocks as it counts. -/
def Counted (a : Arrival) : Prop := a.Passes → a.Whole

instance (a : Arrival) : Decidable a.Counted := inferInstanceAs (Decidable (_ → _))

/-- 32 bits count fewer than 2^32 blocks. -/
theorem counted_of_few {a : Arrival} (few : a.messages.length < 2 ^ 32) : a.Counted := by
  intro passes
  obtain ⟨nothing, length⟩ := a.passes_iff.mp passes
  rw [Nat.mod_eq_of_lt few] at length
  exact a.whole_iff.mpr ⟨nothing, length⟩

/-- A block takes three bytes, so the blocks of a datagram are never miscounted. -/
theorem counted_of_short {a : Arrival} (short : a.pkt.len < kHeaderSize + 3 * 2 ^ 32) : a.Counted := by
  obtain ⟨whole, framed, _⟩ := parse_spec a.body
  have least : ∀ ms : List (List Byte), (∀ m ∈ ms, Framed m) → 3 * ms.length ≤ (ms.flatMap block).length := by
    intro ms
    induction ms with
    | nil => exact fun _ => Nat.le_refl 0
    | cons m ms ih =>
      intro framed
      have rest := ih fun m' later => framed m' (List.mem_cons_of_mem _ later)
      have first := (framed m List.mem_cons_self).1
      rw [List.flatMap_cons, List.length_append, length_block, List.length_cons]
      omega
  have total := congrArg List.length whole
  rw [List.length_append, Arrival.body, length_bytesAt] at total
  have count := least _ framed
  have few : (parse a.body).1.length < 2 ^ 32 := by
    rw [← Arrival.body] at total
    omega
  exact counted_of_few few

/-- A packet that starts with an encoded header. -/
theorem of_header {a : Arrival} {h : Header} {rest : List Byte} (bytes : a.bytes = encodeHeader h ++ rest) :
    kHeaderSize ≤ a.pkt.len ∧ a.header = h ∧ a.body = rest := by
  have total := congrArg List.length bytes
  rw [Arrival.bytes, length_bytesAt, List.length_append, length_encodeHeader] at total
  rw [Arrival.bytes, total, bytesAt_add] at bytes
  obtain ⟨front, back⟩ := List.append_inj bytes (by rw [length_bytesAt, length_encodeHeader])
  refine ⟨by omega, value_decodeHeader front, ?_⟩
  rw [Arrival.body, total, Nat.add_sub_cancel_left]
  exact back

theorem bytes_ofBytes (bytes : List Byte) : (ofBytes bytes).bytes = bytes :=
  (bytesAt_memoryOf (Nat.le_refl _)).trans (List.take_length)

/-- `n` messages behind a header that counts one. -/
def oneCounted (n : Nat) : Arrival :=
  .ofBytes (encodeHeader ⟨noSession, 1#64, 1#16⟩ ++ (List.replicate n [0x58#8]).flatMap block)

/-- It passes where 32 bits take the number of its messages for one. -/
theorem of_oneCounted {n : Nat} (wraps : n % 2 ^ 32 = 1) : kHeaderSize ≤ (oneCounted n).pkt.len ∧
    (oneCounted n).header = ⟨noSession, 1#64, 1#16⟩ ∧ (oneCounted n).Passes ∧ (oneCounted n).messages.length = n := by
  obtain ⟨long, header, body⟩ := of_header (bytes_ofBytes (encodeHeader ⟨noSession, 1#64, 1#16⟩ ++
    (List.replicate n [0x58#8]).flatMap block))
  have framed : ∀ m ∈ List.replicate n [0x58#8], Framed m := by
    intro m member
    rw [(List.mem_replicate.mp member).2]
    decide
  refine ⟨long, header, ⟨_, framed, ?_, body⟩, ?_⟩
  · rw [List.length_replicate, wraps]
    exact (congrArg (fun h => h.messageCount.toNat) header).symm
  · rw [messages, oneCounted, body, parse_blocks framed, List.length_replicate]

end Arrival

namespace Decoder

/-! ## The log of gaps -/

/-- The gap in front of a packet, if there is one. -/
def missing (d : Decoder) (sequence : BitVec 64) : List Gap :=
  if d.expected < sequence then [⟨d.expected, sequence - d.expected⟩] else []

/-- The log after some gaps. -/
def note (d : Decoder) (gs : List Gap) : Decoder :=
  { d with
    gapsTotal := d.gapsTotal + gs.length
    gapMessages := d.gapMessages + (gs.map Gap.count).sum
    gaps := d.gaps ++ gs.take (kMaxGaps - d.gaps.length) }

theorem note_nil (d : Decoder) : d.note [] = d := by
  simp [note]

theorem noteGap_eq (d : Decoder) (first count : BitVec 64) : d.noteGap first count = d.note [⟨first, count⟩] := by
  simp only [noteGap, note, List.length_singleton, List.map_singleton, List.sum_singleton]
  by_cases room : d.gaps.length < kMaxGaps
  · rw [if_pos room, List.take_of_length_le (by rw [List.length_singleton]; omega)]
  · rw [if_neg room, show kMaxGaps - d.gaps.length = 0 by omega, List.take_zero, List.append_nil]

theorem noteMissing_eq (d : Decoder) (sequence : BitVec 64) :
    d.noteMissing sequence = (d.note (d.missing sequence), d.missing sequence) := by
  unfold noteMissing missing
  split
  · rw [noteGap_eq]
  · rw [note_nil]

/-! ## The cases of a call -/

variable {d : Decoder} {a : Arrival}

/-- The state behind a marker, from the state with the session adopted. -/
def afterMarker (d : Decoder) (h : Header) : Decoder :=
  { d.note (d.missing h.sequence) with
    expected := if d.expected < h.sequence then h.sequence else d.expected
    eos := true
    lastSequence := h.sequence }

/-- The state behind a delivered packet, from the state with the session adopted. -/
def afterData (d : Decoder) (h : Header) : Decoder :=
  { d.note (d.missing h.sequence) with
    lastSequence := h.sequence
    messages := d.messages + h.messageCount.setWidth 64
    applied := d.applied + 1
    expected := h.sequence + h.messageCount.setWidth 64 }

theorem expected_afterMarker (d : Decoder) (h : Header) :
    (d.afterMarker h).expected = if d.expected < h.sequence then h.sequence else d.expected := rfl

theorem expected_afterData (d : Decoder) (h : Header) :
    (d.afterData h).expected = h.sequence + h.messageCount.setWidth 64 := rfl

/-- A packet that carries messages and does not lie in the past. -/
structure Carries (d : Decoder) (a : Arrival) : Prop where
  long : kHeaderSize ≤ a.pkt.len
  counted : a.header.messageCount ≠ kEndOfSession ∧ a.header.messageCount ≠ kHeartbeat
  ahead : ¬ a.header.sequence < (d.adopt a.header).expected

/-- What a call can do: the state after it and what it makes heard. -/
inductive Outcome (d : Decoder) (a : Arrival) : Decoder → Heard → Prop
  | short (short : a.pkt.len < kHeaderSize) : Outcome d a { d with malformed := d.malformed + 1 } {}
  | marker (long : kHeaderSize ≤ a.pkt.len) (marker : a.header.messageCount = kEndOfSession) :
      Outcome d a ((d.adopt a.header).afterMarker a.header) { noted := (d.adopt a.header).missing a.header.sequence }
  | heartbeat (long : kHeaderSize ≤ a.pkt.len) (heartbeat : a.header.messageCount = kHeartbeat) :
      Outcome d a { d.adopt a.header with heartbeats := (d.adopt a.header).heartbeats + 1 } {}
  | duplicate (long : kHeaderSize ≤ a.pkt.len)
      (counted : a.header.messageCount ≠ kEndOfSession ∧ a.header.messageCount ≠ kHeartbeat)
      (past : a.header.sequence < (d.adopt a.header).expected) :
      Outcome d a { d.adopt a.header with duplicates := (d.adopt a.header).duplicates + 1 } {}
  | broken (carries : Carries d a) (broken : ¬ a.Passes) :
      Outcome d a { d.adopt a.header with malformed := (d.adopt a.header).malformed + 1 } {}
  | delivered (carries : Carries d a) (passes : a.Passes) :
      Outcome d a ((d.adopt a.header).afterData a.header)
        { noted := (d.adopt a.header).missing a.header.sequence
          messages := a.messages
          numbers := List.range' a.header.sequence.toNat a.messages.length }

/-- The framer both walks start from. -/
def bodyFramer (pkt : PacketView) : Framer := ⟨pkt.data + kHeaderSize, pkt.len - kHeaderSize, 0⟩

theorem foldl_count (mvs : List MessageView) (n : BitVec 32) :
    mvs.foldl (fun blocks _ => blocks + 1#32) n = n + .ofNat 32 mvs.length := by
  induction mvs generalizing n with
  | nil => simp
  | cons mv mvs ih =>
    rw [List.foldl_cons, ih, List.length_cons, BitVec.ofNat_add, BitVec.add_assoc, BitVec.add_comm 1#32]

theorem foldl_collect (rxTsc : BitVec 64) (mvs : List MessageView) (sunk : List (MessageView × BitVec 64)) :
    mvs.foldl (fun sunk mv => sunk ++ [(mv, rxTsc)]) sunk = sunk ++ mvs.map (·, rxTsc) := by
  induction mvs generalizing sunk with
  | nil => simp
  | cons mv mvs ih => rw [List.foldl_cons, ih, List.map_cons, List.append_assoc, List.singleton_append]

theorem length_viewsFrom (p : Nat) (ms : List (List Byte)) : (viewsFrom p ms).length = ms.length := by
  induction ms generalizing p with
  | nil => rfl
  | cons m ms ih => rw [viewsFrom, List.length_cons, List.length_cons, ih]

/-- The first walk refuses exactly the packets that do not pass. -/
theorem check_iff (a : Arrival) :
    ((!(((bodyFramer a.pkt).walk (fun blocks _ => pure (blocks + 1#32)) 0#32).value a.mem).2.exhausted) = true ∨
      (((bodyFramer a.pkt).walk (fun blocks _ => pure (blocks + 1#32)) 0#32).value a.mem).1 ≠
        a.header.messageCount.setWidth 32) ↔ ¬ a.Passes := by
  have exhausted : (((bodyFramer a.pkt).walk (fun blocks _ => pure (blocks + 1#32)) 0#32).value a.mem).2.exhausted = true ↔
      (parse a.body).2 = [] := Framer.walk_exhausted _ _ rfl
  have count : (((bodyFramer a.pkt).walk (fun blocks _ => pure (blocks + 1#32)) 0#32).value a.mem).1 =
      .ofNat 32 a.messages.length := by
    rw [Framer.walk_value _ _ rfl]
    simp only [value_pure]
    rw [foldl_count, length_viewsFrom, BitVec.zero_add]
    rfl
  have same : BitVec.ofNat 32 a.messages.length = a.header.messageCount.setWidth 32 ↔
      a.messages.length % 2 ^ 32 = a.header.messageCount.toNat := by
    have narrow := a.header.messageCount.isLt
    have fits : a.header.messageCount.toNat % 2 ^ 32 = a.header.messageCount.toNat := Nat.mod_eq_of_lt (by omega)
    rw [← BitVec.toNat_inj, BitVec.toNat_ofNat, BitVec.toNat_setWidth, fits]
  rw [Bool.not_eq_true', ← Bool.not_eq_true, exhausted, count, Ne, same, a.passes_iff]
  exact (Classical.not_and_iff_not_or_not).symm

/-- The second walk hands the sink the messages of the packet. -/
theorem sunk_eq (a : Arrival) :
    (((bodyFramer a.pkt).walk (fun sunk mv => pure (sunk ++ [(mv, a.pkt.rxTsc)])) []).value a.mem).1 =
      (viewsFrom (a.pkt.data + kHeaderSize) a.messages).map (·, a.pkt.rxTsc) := by
  rw [Framer.walk_value _ _ rfl]
  simp only [value_pure]
  rw [foldl_collect, List.nil_append]
  rfl

theorem sunk_bytes (a : Arrival) :
    ((viewsFrom (a.pkt.data + kHeaderSize) a.messages).map (·, a.pkt.rxTsc)).map (fun call => call.1.bytes a.mem) =
      a.messages := by
  have body : a.body = a.messages.flatMap block ++ (parse a.body).2 := (parse_spec a.body).1.symm
  rw [List.map_map]
  exact viewsFrom_bytes body

/-- The marker's two updates of the state are one. -/
theorem marker_state (d : Decoder) (h : Header) :
    { (if d.expected < h.sequence then { d.note (d.missing h.sequence) with expected := h.sequence }
        else d.note (d.missing h.sequence)) with eos := true, lastSequence := h.sequence } = d.afterMarker h := by
  unfold afterMarker
  by_cases gap : d.expected < h.sequence
  · rw [if_pos gap, if_pos gap]
  · rw [if_neg gap, if_neg gap]
    rfl

theorem data_state (d : Decoder) (h : Header) :
    { d.note (d.missing h.sequence) with
      lastSequence := h.sequence
      messages := (d.note (d.missing h.sequence)).messages + h.messageCount.setWidth 64
      applied := (d.note (d.missing h.sequence)).applied + 1
      expected := h.sequence + h.messageCount.setWidth 64 } = d.afterData h := rfl

/-- A call in terms of the blocks of the packet. -/
theorem onPacket_eq (d : Decoder) (a : Arrival) : (d.onPacket a.pkt).value a.mem =
    if a.pkt.len < kHeaderSize then ({ d with malformed := d.malformed + 1 }, {})
    else if a.header.messageCount = kEndOfSession then
      ((d.adopt a.header).afterMarker a.header, { noted := (d.adopt a.header).missing a.header.sequence })
    else if a.header.messageCount = kHeartbeat then
      ({ d.adopt a.header with heartbeats := (d.adopt a.header).heartbeats + 1 }, {})
    else if a.header.sequence < (d.adopt a.header).expected then
      ({ d.adopt a.header with duplicates := (d.adopt a.header).duplicates + 1 }, {})
    else if ¬ a.Passes then ({ d.adopt a.header with malformed := (d.adopt a.header).malformed + 1 }, {})
    else ((d.adopt a.header).afterData a.header, {
      noted := (d.adopt a.header).missing a.header.sequence
      sunk := (viewsFrom (a.pkt.data + kHeaderSize) a.messages).map (·, a.pkt.rxTsc) }) := by
  have check := check_iff a
  have sunk := sunk_eq a
  have header : (decodeHeader a.pkt.data).value a.mem = a.header := rfl
  simp only [bodyFramer] at check sunk
  unfold onPacket
  split
  · rfl
  simp only [value_bind, header]
  split
  · simp only [value_pure, noteMissing_eq, marker_state]
  split
  · rfl
  split
  · rfl
  simp only [value_bind]
  by_cases passes : a.Passes
  · rw [if_neg (not_not.mpr passes ∘ check.mp), if_neg (not_not.mpr passes)]
    simp only [value_bind, value_pure, noteMissing_eq, sunk, data_state]
  · rw [if_pos (check.mpr passes), if_pos passes]
    rfl

/-- A call and what it makes heard. -/
theorem step_eq (d : Decoder) (a : Arrival) : d.step a =
    if a.pkt.len < kHeaderSize then ({ d with malformed := d.malformed + 1 }, {})
    else if a.header.messageCount = kEndOfSession then
      ((d.adopt a.header).afterMarker a.header, { noted := (d.adopt a.header).missing a.header.sequence })
    else if a.header.messageCount = kHeartbeat then
      ({ d.adopt a.header with heartbeats := (d.adopt a.header).heartbeats + 1 }, {})
    else if a.header.sequence < (d.adopt a.header).expected then
      ({ d.adopt a.header with duplicates := (d.adopt a.header).duplicates + 1 }, {})
    else if ¬ a.Passes then ({ d.adopt a.header with malformed := (d.adopt a.header).malformed + 1 }, {})
    else ((d.adopt a.header).afterData a.header, {
      noted := (d.adopt a.header).missing a.header.sequence
      messages := a.messages
      numbers := List.range' a.header.sequence.toNat a.messages.length }) := by
  unfold step
  rw [onPacket_eq]
  split
  · rfl
  split
  · simp only [List.map_nil, List.length_nil, List.range'_zero]
  split
  · rfl
  split
  · rfl
  split
  · rfl
  · simp only [sunk_bytes, List.length_map, length_viewsFrom]

/-- Every call has one of the outcomes. -/
theorem outcome (d : Decoder) (a : Arrival) : Outcome d a (d.step a).1 (d.step a).2 := by
  rw [step_eq]
  split
  · next short => exact .short short
  next long =>
  have long' := Nat.le_of_not_lt long
  split
  · next marker => exact .marker long' marker
  next notMarker =>
  split
  · next heartbeat => exact .heartbeat long' heartbeat
  next notHeartbeat =>
  split
  · next past => exact .duplicate long' ⟨notMarker, notHeartbeat⟩ past
  next ahead =>
  split
  · next broken => exact .broken ⟨long', ⟨notMarker, notHeartbeat⟩, ahead⟩ broken
  · next passes => exact .delivered ⟨long', ⟨notMarker, notHeartbeat⟩, ahead⟩ (not_not.mp passes)

/-! ## Known packets -/

theorem step_marker (long : kHeaderSize ≤ a.pkt.len) (marker : a.header.messageCount = kEndOfSession) :
    d.step a = ((d.adopt a.header).afterMarker a.header, { noted := (d.adopt a.header).missing a.header.sequence }) := by
  rw [step_eq, if_neg (Nat.not_lt.mpr long), if_pos marker]

theorem step_heartbeat (long : kHeaderSize ≤ a.pkt.len) (heartbeat : a.header.messageCount = kHeartbeat) :
    d.step a = ({ d.adopt a.header with heartbeats := (d.adopt a.header).heartbeats + 1 }, {}) := by
  have apart : a.header.messageCount ≠ kEndOfSession := by
    rw [heartbeat]
    decide
  rw [step_eq, if_neg (Nat.not_lt.mpr long), if_neg apart, if_pos heartbeat]

theorem step_delivered (carries : Carries d a) (passes : a.Passes) :
    d.step a = ((d.adopt a.header).afterData a.header, {
      noted := (d.adopt a.header).missing a.header.sequence
      messages := a.messages
      numbers := List.range' a.header.sequence.toNat a.messages.length }) := by
  rw [step_eq, if_neg (Nat.not_lt.mpr carries.long), if_neg carries.counted.1, if_neg carries.counted.2,
    if_neg carries.ahead, if_neg (not_not.mpr passes)]

/-! ## The session rule -/

/-- The header starts a stretch: the first of all, or of another session than before. -/
def Opens (d : Decoder) (h : Header) : Prop := d.started = false ∨ h.session ≠ d.session

instance (d : Decoder) (h : Header) : Decidable (d.Opens h) := inferInstanceAs (Decidable (_ ∨ _))

theorem adopt_of_not_opens {h : Header} (same : ¬ d.Opens h) : d.adopt h = d := by
  obtain ⟨started, session⟩ := not_or.mp same
  rw [adopt, if_neg (by simpa using started), if_neg session]

theorem adopt_of_opens {h : Header} (opens : d.Opens h) : d.adopt h =
    { d with
      started := true
      sessionChanges := if d.started then d.sessionChanges + 1 else d.sessionChanges
      session := h.session
      expected := h.sequence } := by
  unfold adopt
  cases started : d.started with
  | false => rfl
  | true =>
    have other : h.session ≠ d.session := opens.resolve_left (by rw [started]; decide)
    simp only [Bool.not_true, Bool.false_eq_true, if_false, if_true, other, ne_eq, not_false_eq_true]

theorem started_adopt (d : Decoder) (h : Header) : (d.adopt h).started = true ∧ (d.adopt h).session = h.session := by
  by_cases opens : d.Opens h
  · rw [adopt_of_opens opens]
    exact ⟨rfl, rfl⟩
  · rw [adopt_of_not_opens opens]
    obtain ⟨started, session⟩ := not_or.mp opens
    exact ⟨by simpa using started, (not_not.mp session).symm⟩

/-! ## The log over a run -/

/-- The second state has the log of the first and some gaps behind it. -/
structure Logged (d : Decoder) (gs : List Gap) (d' : Decoder) : Prop where
  total : d'.gapsTotal = d.gapsTotal + gs.length
  missed : d'.gapMessages = d.gapMessages + (gs.map Gap.count).sum
  listed : d'.gaps = d.gaps ++ gs.take (kMaxGaps - d.gaps.length)

theorem logged_adopt (d : Decoder) (h : Header) : Logged d [] (d.adopt h) := by
  have initially : Logged d [] d := ⟨rfl, (BitVec.add_zero _).symm, by rw [List.take_nil, List.append_nil]⟩
  by_cases opens : d.Opens h
  · rw [adopt_of_opens opens]
    exact ⟨initially.total, initially.missed, initially.listed⟩
  · rw [adopt_of_not_opens opens]
    exact initially

theorem Logged.trans {d d' d'' : Decoder} {gs gs' : List Gap} (one : Logged d gs d') (two : Logged d' gs' d'') :
    Logged d (gs ++ gs') d'' where
  total := by rw [two.total, one.total, List.length_append, Nat.add_assoc]
  missed := by rw [two.missed, one.missed, List.map_append, List.sum_append, BitVec.add_assoc]
  listed := by
    rw [two.listed, one.listed, List.length_append, List.length_take, List.take_append, List.append_assoc]
    congr 3
    omega

theorem logged_afterMarker (d : Decoder) (h : Header) : Logged d (d.missing h.sequence) (d.afterMarker h) :=
  ⟨rfl, rfl, rfl⟩

theorem logged_afterData (d : Decoder) (h : Header) : Logged d (d.missing h.sequence) (d.afterData h) :=
  ⟨rfl, rfl, rfl⟩

/-- The gaps a call notes are those it logs. -/
theorem logged_step (d : Decoder) (a : Arrival) : Logged d (d.step a).2.noted (d.step a).1 := by
  have outcome := d.outcome a
  have adopted := logged_adopt d a.header
  generalize d.step a = r at outcome ⊢
  obtain ⟨d', heard⟩ := r
  dsimp only at outcome ⊢
  cases outcome with
  | short short => exact ⟨rfl, (BitVec.add_zero _).symm, by rw [List.take_nil, List.append_nil]⟩
  | marker long marker =>
    dsimp only
    have logged := adopted.trans (logged_afterMarker _ a.header)
    rwa [List.nil_append] at logged
  | heartbeat long heartbeat => exact ⟨adopted.total, adopted.missed, adopted.listed⟩
  | duplicate long counted past => exact ⟨adopted.total, adopted.missed, adopted.listed⟩
  | broken carries broken => exact ⟨adopted.total, adopted.missed, adopted.listed⟩
  | delivered carries whole =>
    dsimp only
    have logged := adopted.trans (logged_afterData _ a.header)
    rwa [List.nil_append] at logged

theorem logged_run (d : Decoder) (arrivals : List Arrival) :
    Logged d ((Runs.answers step d arrivals).flatMap Heard.noted) (Runs.after step d arrivals) := by
  induction arrivals generalizing d with
  | nil => exact ⟨rfl, (BitVec.add_zero _).symm, by rw [Runs.answers, List.flatMap_nil, List.take_nil, List.append_nil]; rfl⟩
  | cons a as ih =>
    rw [Runs.answers, List.flatMap_cons]
    exact (logged_step d a).trans (ih _)

end Decoder
end Nts.Mold
