import Nts.Lib.HighWater
import Nts.Mold.Stretches
import Nts.Mold.Drops

/-!
# Any network

The packets of one sender reach the decoder in any order, each any number of times or never, and so
does its end of session. The decoder is a receiver with a high-water mark: what it delivers is a part of
what was packed, in order and once, and the gaps it notes are the ranges the mark skips. Two of its numbers
tell whether anything is missing.
-/

namespace Nts.Mold
open Reading Itch HighWater

namespace Sent

/-- The sequence number of its first message. -/
def first (x : Sent) : Nat := x.packet.sequence.toNat

/-- The sequence number behind its last message. -/
def next (x : Sent) : Nat := x.first + x.count

/-- The bytes of what the network brings: a packet, or (`none`) the end of session. -/
def bytesOf (marker : List Byte) : Option Sent → List Byte
  | some x => x.packet.bytes
  | none => marker

end Sent

/-- A count that fits a header keeps its value in a sequence. -/
theorem setWidth_count {n : Nat} (below : n < 0xFFFF) : (BitVec.ofNat 16 n).setWidth 64 = .ofNat 64 n := by
  apply BitVec.eq_of_toNat_eq
  rw [BitVec.toNat_setWidth, BitVec.toNat_ofNat, BitVec.toNat_ofNat]
  omega

namespace Consecutive
open Sent
variable {s : Session} {q e : Nat} {xs : List Sent}

theorem line (consecutive : Consecutive s q xs e) : Line first next q xs e := by
  induction xs generalizing q with
  | nil => exact consecutive
  | cons x xs ih =>
    obtain ⟨⟨sequence, _, nonempty, _⟩, later⟩ := consecutive
    have positive : 0 < x.count := List.length_pos_of_ne_nil nonempty
    obtain rfl : x.first = q := sequence
    exact ⟨⟨rfl, Nat.lt_add_of_pos_right positive⟩, ih later⟩

/-- Each packet is one of messages of its session. -/
theorem packet (consecutive : Consecutive s q xs e) : ∀ x ∈ xs,
    x.packet.bytes = packetOf s x.packet.sequence x.packet.messages ∧ x.packet.messages ≠ [] ∧ x.count < 0xFFFF ∧
      ∀ m ∈ x.packet.messages, Framed m := by
  induction xs generalizing q with
  | nil => exact fun _ member => (List.not_mem_nil member).elim
  | cons x xs ih =>
    obtain ⟨⟨_, here⟩, later⟩ := consecutive
    exact List.forall_mem_cons.mpr ⟨here, ih later⟩

end Consecutive

/-! ## One datagram -/

namespace Decoder
open Sent
variable {d : Decoder} {s : Session} {a : Arrival}

/-- A header of its own session leaves the decoder as it is. -/
theorem At.adopt {h : Header} (here : d.At s d.expected) (same : h.session = s) : d.adopt h = d := by
  apply adopt_of_not_opens
  rintro (fresh | other)
  · rw [here.started] at fresh
    cases fresh
  · exact other (same.trans here.session.symm)

/-- What a decoder in a session makes of a packet of messages of it. -/
theorem At.step_data (here : d.At s d.expected) {x : Sent}
    (packet : x.packet.bytes = packetOf s x.packet.sequence x.packet.messages ∧ x.packet.messages ≠ [] ∧ x.count < 0xFFFF ∧
      ∀ m ∈ x.packet.messages, Framed m) (bytes : a.bytes = x.packet.bytes) :
    (d.expected.toNat ≤ x.first → (d.step a).2.messages = x.packet.messages ∧
      (d.step a).2.noted = d.missing x.packet.sequence ∧
      (d.step a).1 = d.afterData ⟨s, x.packet.sequence, .ofNat 16 x.count⟩) ∧
    (x.first < d.expected.toNat → d.step a = ({ d with duplicates := d.duplicates + 1 }, {})) := by
  obtain ⟨packed, nonempty, below, framed⟩ := packet
  obtain ⟨long, header, whole, messages⟩ := Arrival.of_packet (bytes.trans packed) framed below
  have adopted : d.adopt a.header = d := here.adopt (by rw [header])
  have count : (BitVec.ofNat 16 x.count).toNat = x.count := Nat.mod_eq_of_lt (below.trans (by decide))
  have counted : a.header.messageCount ≠ kEndOfSession ∧ a.header.messageCount ≠ kHeartbeat := by
    have positive : 0 < x.count := List.length_pos_of_ne_nil nonempty
    rw [header]
    constructor <;> intro equal <;> have value := congrArg BitVec.toNat equal
    · exact absurd (count.symm.trans value) (Nat.ne_of_lt below)
    · exact absurd (count.symm.trans value) (Nat.ne_of_gt positive)
  constructor
  · intro ahead
    have ahead' : ¬ a.header.sequence < (d.adopt a.header).expected := by
      rw [adopted, header]
      exact Nat.not_lt.mpr ahead
    rw [step_delivered ⟨long, counted, ahead'⟩ whole.passes, adopted, header]
    exact ⟨messages, rfl, rfl⟩
  · intro past
    have past' : a.header.sequence < (d.adopt a.header).expected := by
      rw [adopted, header]
      exact past
    rw [step_eq, if_neg (Nat.not_lt.mpr long), if_neg counted.1, if_neg counted.2, if_pos past', adopted]

/-- The session rule is done before anything else: doing it twice changes nothing. -/
theorem step_adopt (d : Decoder) (long : kHeaderSize ≤ a.pkt.len) : (d.adopt a.header).step a = d.step a := by
  obtain ⟨started, session⟩ := started_adopt d a.header
  have same : (d.adopt a.header).adopt a.header = d.adopt a.header := by
    apply adopt_of_not_opens
    rintro (fresh | other)
    · rw [started] at fresh
      cases fresh
    · exact other session.symm
  rw [step_eq, step_eq d, same, if_neg (Nat.not_lt.mpr long), if_neg (Nat.not_lt.mpr long)]

/-- What it makes of the end of session. -/
theorem At.step_end (here : d.At s d.expected) {last : BitVec 64}
    (bytes : a.bytes = encodeHeader ⟨s, last, kEndOfSession⟩) :
    d.step a = (d.afterMarker ⟨s, last, kEndOfSession⟩, { noted := d.missing last }) := by
  obtain ⟨long, header, _⟩ := Arrival.of_header (bytes.trans (List.append_nil _).symm)
  have adopted : d.adopt a.header = d := here.adopt (by rw [header])
  rw [step_marker long (by rw [header]), adopted, header]

/-- The gap in front of a sequence number, as a range. -/
theorem missing_span (d : Decoder) (sequence : BitVec 64) : (d.missing sequence).map Gap.span =
    if d.expected.toNat < sequence.toNat then [⟨d.expected.toNat, sequence.toNat - d.expected.toNat⟩] else [] := by
  unfold missing
  by_cases gap : d.expected < sequence
  · have gap' : d.expected.toNat < sequence.toNat := gap
    rw [if_pos gap, if_pos gap', List.map_singleton, Gap.span, BitVec.toNat_sub_of_le (BitVec.le_of_lt gap)]
  · have noGap : ¬ d.expected.toNat < sequence.toNat := gap
    rw [if_neg gap, if_neg noGap]
    rfl

end Decoder

/-! ## Whole runs -/

section
open Sent

/-- What a run over some datagrams makes of a decoder: it behaves as a receiver with a high-water mark. -/
structure Carried (s : Session) (last : BitVec 64) (d : Decoder) (flights : List (Option Sent)) (answers : List Heard)
    (d' : Decoder) : Prop where
  here : d'.At s d'.expected
  expected : d'.expected.toNat = raised first next last.toNat d.expected.toNat flights
  heard : answers.flatMap Heard.messages =
    (taken first next last.toNat d.expected.toNat flights).flatMap fun x => x.packet.messages
  noted : (answers.flatMap Heard.noted).map Gap.span = skipped first next last.toNat d.expected.toNat flights
  messages : d'.messages = d.messages + .ofNat 64 ((taken first next last.toNat d.expected.toNat flights).map count).sum
  applied : d'.applied = d.applied + (taken first next last.toNat d.expected.toNat flights).length
  /-- The packets that came too late or again. -/
  duplicates : d'.duplicates + (taken first next last.toNat d.expected.toNat flights).length =
    d.duplicates + flights.reduceOption.length
  untouched : d'.malformed = d.malformed ∧ d'.heartbeats = d.heartbeats ∧ d'.sessionChanges = d.sessionChanges
  eos : d'.eos = true ↔ d.eos = true ∨ none ∈ flights

variable {s : Session} {q : Nat} {last : BitVec 64} {line : List Sent}

/-- **Any network**, at a decoder in the session. -/
theorem carried_run (consecutive : Consecutive s q line last.toNat) {flights : List (Option Sent)}
    (onWire : ∀ x, some x ∈ flights → x ∈ line) {d : Decoder} (here : d.At s d.expected) (below : d.expected.toNat ≤ last.toNat)
    {arrivals : List Arrival} (carried : arrivals.map Arrival.bytes = flights.map (bytesOf (encodeHeader ⟨s, last, kEndOfSession⟩))) :
    Carried s last d flights (Runs.answers Decoder.step d arrivals) (Runs.after Decoder.step d arrivals) := by
  induction flights generalizing d arrivals with
  | nil =>
    obtain rfl := List.map_eq_nil_iff.mp carried
    exact ⟨here, rfl, rfl, rfl, (BitVec.add_zero _).symm, rfl, rfl, ⟨rfl, rfl, rfl⟩,
      ⟨Or.inl, fun eos => eos.resolve_right List.not_mem_nil⟩⟩
  | cons f flights ih =>
    obtain ⟨a, as, rfl, bytes, rest⟩ := List.map_eq_cons_iff.mp carried
    have onWire' : ∀ x, some x ∈ flights → x ∈ line := fun x member => onWire x (List.mem_cons_of_mem _ member)
    cases f with
    | none =>
      have step := here.step_end bytes
      have top : (d.afterMarker ⟨s, last, kEndOfSession⟩).expected.toNat = max d.expected.toNat last.toNat := by
        rw [Decoder.expected_afterMarker, Nat.max_eq_right below]
        split
        · rfl
        · next reached => exact Nat.le_antisymm below (Nat.not_lt.mp reached)
      obtain ⟨here', expected, heard, noted, messages, applied, duplicates, untouched, eos⟩ :=
        ih onWire' (d := d.afterMarker ⟨s, last, kEndOfSession⟩) ⟨here.started, here.session, rfl⟩
          (top.trans (Nat.max_eq_right below)).le rest
      rw [top] at expected heard noted messages applied duplicates
      rw [Runs.after_cons, Runs.answers, step]
      refine ⟨here', expected, ?_, ?_, messages, applied, duplicates, untouched, ?_⟩
      · exact heard
      · rw [List.flatMap_cons, List.map_append, noted, d.missing_span]
        rfl
      · exact eos.trans ⟨fun _ => Or.inr List.mem_cons_self, fun _ => Or.inl rfl⟩
    | some x =>
      have packet := consecutive.packet x (onWire x List.mem_cons_self)
      obtain ⟨low, _, high⟩ := consecutive.line.inside x (onWire x List.mem_cons_self)
      obtain ⟨delivered, late⟩ := here.step_data packet bytes
      have more : none ∈ some x :: flights ↔ none ∈ flights := List.mem_cons.trans (or_iff_right (Option.some_ne_none x).symm)
      by_cases ahead : d.expected.toNat ≤ x.first
      · obtain ⟨shown, gap, state⟩ := delivered ahead
        have reached : (d.afterData ⟨s, x.packet.sequence, .ofNat 16 x.count⟩).expected.toNat = x.next := by
          have fits := high.trans_lt last.isLt
          rw [Decoder.expected_afterData, setWidth_count packet.2.2.1, BitVec.toNat_add, BitVec.toNat_ofNat]
          change (x.first + x.count % 2 ^ 64) % 2 ^ 64 = x.first + x.count
          change x.first + x.count < 2 ^ 64 at fits
          omega
        obtain ⟨here', expected, heard, noted, messages, applied, duplicates, untouched, eos⟩ :=
          ih onWire' (d := d.afterData ⟨s, x.packet.sequence, .ofNat 16 x.count⟩) ⟨here.started, here.session, rfl⟩
            (reached ▸ high) rest
        rw [reached] at expected heard noted messages applied duplicates
        rw [Runs.after_cons, Runs.answers, state]
        refine ⟨here', ?_, ?_, ?_, ?_, ?_, ?_, untouched, eos.trans (or_congr Iff.rfl more.symm)⟩
        · rw [expected, raised, if_pos ahead]
        · rw [List.flatMap_cons, shown, heard, taken, if_pos ahead, List.flatMap_cons]
        · rw [List.flatMap_cons, gap, List.map_append, noted, d.missing_span, skipped, if_pos ahead]
          rfl
        · rw [messages, taken, if_pos ahead, List.map_cons, List.sum_cons, BitVec.ofNat_add, ← BitVec.add_assoc,
            ← setWidth_count packet.2.2.1]
          rfl
        · rw [applied, taken, if_pos ahead, List.length_cons, Nat.add_comm _ 1, ← Nat.add_assoc]
          rfl
        · rw [taken, if_pos ahead, List.length_cons, ← Nat.add_assoc, duplicates, List.reduceOption_cons_of_some,
            List.length_cons, Nat.add_assoc]
          rfl
      · have past := Nat.lt_of_not_le ahead
        obtain ⟨here', expected, heard, noted, messages, applied, duplicates, untouched, eos⟩ :=
          ih onWire' (d := { d with duplicates := d.duplicates + 1 }) ⟨here.started, here.session, rfl⟩ below rest
        rw [Runs.after_cons, Runs.answers, late past]
        refine ⟨here', ?_, ?_, ?_, ?_, ?_, ?_, untouched, eos.trans (or_congr Iff.rfl more.symm)⟩
        · rw [expected, raised, if_neg ahead]
        · rw [List.flatMap_cons, heard, taken, if_neg ahead]
          rfl
        · rw [List.flatMap_cons, List.map_append, noted, skipped, if_neg ahead]
          rfl
        · rw [messages, taken, if_neg ahead]
        · rw [applied, taken, if_neg ahead]
        · rw [taken, if_neg ahead, duplicates, List.reduceOption_cons_of_some, List.length_cons, Nat.add_assoc,
            Nat.add_comm 1]

/-- Where the mark of a fresh decoder starts: at the first datagram to arrive. -/
def opening (last : BitVec 64) : List (Option Sent) → Nat
  | some x :: _ => x.first
  | none :: _ => last.toNat
  | [] => 0

/-- A fresh decoder takes the first datagram, wherever it begins. -/
theorem taken_opening (last : BitVec 64) (flights : List (Option Sent)) :
    taken first next last.toNat (opening last flights) flights = taken first next last.toNat 0 flights := by
  match flights with
  | [] => rfl
  | none :: _ =>
    rw [taken, taken, opening, Nat.max_self, Nat.zero_max]
  | some x :: _ =>
    rw [taken, taken, opening, if_pos (Nat.le_refl _), if_pos (Nat.zero_le _)]

/-- What arrives of a line of packets, at a fresh decoder. -/
structure Delivers (q last : BitVec 64) (line : List Sent) (flights : List (Option Sent)) (answers : List Heard)
    (d : Decoder) : Prop where
  /-- In order and once. -/
  ordered : (taken first next last.toNat 0 flights).Sublist line
  heard : answers.flatMap Heard.messages =
    (taken first next last.toNat 0 flights).flatMap fun x => x.packet.messages
  noted : (answers.flatMap Heard.noted).map Gap.span = skipped first next last.toNat (opening last flights) flights
  /-- Every number from the first that arrived on is delivered or counted missing. -/
  accounts : flights ≠ [] → opening last flights + d.messages.toNat + d.gapMessages.toNat = d.expected.toNat
  applied : d.applied = (taken first next last.toNat 0 flights).length
  duplicates : d.duplicates + d.applied = flights.reduceOption.length
  untouched : d.malformed = 0 ∧ d.heartbeats = 0 ∧ d.sessionChanges = 0
  eos : d.eos = true ↔ none ∈ flights
  /-- Whether anything is missing shows in the decoder. -/
  complete : d.eos = true ∧ d.expected = q + d.messages ↔
    none ∈ flights ∧ answers.flatMap Heard.messages = line.flatMap fun x => x.packet.messages

/-- The numbers that some gaps count, as long as they fit. -/
theorem sum_spans (gs : List Gap) :
    ((gs.map Gap.count).sum).toNat = ((gs.map Gap.span).map Span.size).sum % 2 ^ 64 := by
  induction gs with
  | nil => rfl
  | cons g gs ih =>
    rw [List.map_cons, List.map_cons, List.map_cons, List.sum_cons, List.sum_cons, BitVec.toNat_add, ih, Nat.add_mod_mod]
    rfl

theorem length_messages (xs : List Sent) : (xs.flatMap fun x => x.packet.messages).length = (xs.map count).sum := by
  rw [List.length_flatMap]
  rfl

/-- What the first datagram opens. -/
theorem opens_at (consecutive : Consecutive s q line last.toNat) {f : Option Sent} {flights : List (Option Sent)}
    (onWire : ∀ x, some x ∈ f :: flights → x ∈ line) {a : Arrival} (bytes : a.bytes = bytesOf (encodeHeader ⟨s, last, kEndOfSession⟩) f) :
    kHeaderSize ≤ a.pkt.len ∧ a.header.session = s ∧ a.header.sequence.toNat = opening last (f :: flights) ∧
      opening last (f :: flights) ≤ last.toNat := by
  cases f with
  | none =>
    obtain ⟨long, header, _⟩ := Arrival.of_header (bytes.trans (List.append_nil _).symm)
    rw [header]
    exact ⟨long, rfl, rfl, Nat.le_refl _⟩
  | some x =>
    have member := onWire x List.mem_cons_self
    obtain ⟨packed, _, below, framed⟩ := consecutive.packet x member
    obtain ⟨long, header, _⟩ := Arrival.of_packet (bytes.trans packed) framed below
    obtain ⟨_, filled, high⟩ := consecutive.line.inside x member
    rw [header]
    exact ⟨long, rfl, rfl, filled.le.trans high⟩

/-- A run from the start is one from the decoder that has seen the first header. -/
theorem carried_start (consecutive : Consecutive s q line last.toNat) {f : Option Sent} {flights : List (Option Sent)}
    (onWire : ∀ x, some x ∈ f :: flights → x ∈ line) {arrivals : List Arrival}
    (carried : arrivals.map Arrival.bytes = (f :: flights).map (bytesOf (encodeHeader ⟨s, last, kEndOfSession⟩))) :
    ∃ d : Decoder, d = { started := true, session := s, expected := d.expected } ∧
      d.expected.toNat = opening last (f :: flights) ∧ opening last (f :: flights) ≤ last.toNat ∧
      Carried s last d (f :: flights) (Runs.answers Decoder.step {} arrivals) (Runs.after Decoder.step {} arrivals) := by
  obtain ⟨a, as, rfl, bytes, _⟩ := List.map_eq_cons_iff.mp carried
  obtain ⟨long, session, sequence, inside⟩ := opens_at consecutive onWire bytes
  have adopted : ({} : Decoder).adopt a.header =
      { started := true, session := s, expected := a.header.sequence } := by
    rw [Decoder.adopt_of_opens (Or.inl rfl), session]
    rfl
  have same := Decoder.step_adopt {} long
  have run := carried_run consecutive onWire (d := ({} : Decoder).adopt a.header) (by rw [adopted]; exact ⟨rfl, rfl, rfl⟩)
    (by rw [adopted]; exact sequence.trans_le inside) carried
  rw [Runs.after_cons, Runs.answers, same] at run
  refine ⟨({} : Decoder).adopt a.header, ?_, ?_, inside, run⟩
  · rw [adopted]
  · rw [adopted]
    exact sequence

theorem delivers_run {q : BitVec 64} (consecutive : Consecutive s q.toNat line last.toNat) {flights : List (Option Sent)}
    (onWire : ∀ x, some x ∈ flights → x ∈ line) {arrivals : List Arrival}
    (carried : arrivals.map Arrival.bytes = flights.map (bytesOf (encodeHeader ⟨s, last, kEndOfSession⟩))) :
    Delivers q last line flights (Runs.answers Decoder.step {} arrivals) (Runs.after Decoder.step {} arrivals) := by
  match flights with
  | [] =>
    obtain rfl := List.map_eq_nil_iff.mp carried
    exact ⟨List.nil_sublist line, rfl, rfl, fun arrived => absurd rfl arrived, rfl, rfl, ⟨rfl, rfl, rfl⟩,
      iff_of_false Bool.false_ne_true List.not_mem_nil,
      iff_of_false (fun both => Bool.false_ne_true both.1) fun both => List.not_mem_nil both.1⟩
  | f :: flights =>
    have logged := Decoder.logged_run {} arrivals
    obtain ⟨d, state, start, inside, here, expected, heard, noted, messages, applied, duplicates, untouched, eos⟩ :=
      carried_start consecutive onWire carried
    have missed : _ = 0#64 + _ := logged.missed
    generalize Runs.answers Decoder.step {} arrivals = answers at *
    generalize Runs.after Decoder.step {} arrivals = d' at *
    rw [start] at expected heard noted messages applied duplicates
    have whole := consecutive.line
    have grow : ∀ x, some x ∈ f :: flights → x.first < x.next := fun x member => (whole.inside x (onWire x member)).2.1
    have accounts := taken_add_skipped last.toNat grow (opening last (f :: flights))
    obtain ⟨raisedBelow, reached⟩ := whole.raised_le onWire inside
    have sizes : ∀ xs : List Sent, (xs.map fun x => x.next - x.first) = xs.map count := fun xs =>
      List.map_congr_left fun x _ => Nat.add_sub_cancel_left x.first x.count
    rw [sizes] at accounts
    -- the decoder's 64-bit sums are those of the receiver, which never leave the line
    have small := last.isLt
    have delivered : d'.messages.toNat = ((taken first next last.toNat (opening last (f :: flights)) (f :: flights)).map
        count).sum := by
      have fresh : d.messages = 0#64 := by
        rw [state]
        rfl
      rw [messages, fresh, BitVec.zero_add, BitVec.toNat_ofNat, Nat.mod_eq_of_lt (by omega)]
    have gaps : d'.gapMessages.toNat = ((skipped first next last.toNat (opening last (f :: flights)) (f :: flights)).map
        Span.size).sum := by
      rw [missed, ← noted, BitVec.zero_add, sum_spans, noted, Nat.mod_eq_of_lt (by omega)]
    have ordered := whole.taken_sublist last.toNat onWire (opening last (f :: flights))
    have closed : d'.eos = true ↔ none ∈ f :: flights := by
      have fresh : d.eos = false := by rw [state]
      rw [eos, fresh]
      exact or_iff_right Bool.false_ne_true
    refine ⟨taken_opening last _ ▸ ordered, taken_opening last _ ▸ heard, noted, ?_, ?_, ?_, ?_, closed, ?_⟩
    · intro _
      rw [delivered, gaps, accounts, expected]
    · rw [applied, taken_opening, state]
      exact Nat.zero_add _
    · have fresh : d.duplicates = 0 ∧ d.applied = 0 := by
        rw [state]
        exact ⟨rfl, rfl⟩
      rw [applied, fresh.2, Nat.zero_add, duplicates, fresh.1, Nat.zero_add]
    · rw [untouched.1, untouched.2.1, untouched.2.2, state]
      exact ⟨rfl, rfl, rfl⟩
    · rw [closed, heard]
      refine and_congr_right fun ended => ?_
      have total := whole.total
      have part := (ordered.map count).sum_le_sum fun _ _ => Nat.zero_le _
      have filled := whole.taken_eq_iff last.toNat onWire (opening last (f :: flights))
      rw [sizes] at total filled
      rw [← BitVec.toNat_inj, expected, reached ended, BitVec.toNat_add, delivered, Nat.mod_eq_of_lt (by omega),
        eq_comm, ← filled]
      refine ⟨fun all => by rw [all], fun same => ?_⟩
      have lengths := congrArg List.length same
      rw [length_messages, length_messages] at lengths
      exact eq_of_sum ordered (fun x member => List.length_pos_of_ne_nil (consecutive.packet x member).2.1) lengths

end

end Nts.Mold
