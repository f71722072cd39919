import Nts.Lib.Segments
import Nts.Mold.Link

/-!
# Dropped packets

The packets of a packer reach the decoder but for those that are dropped. The gaps it notes are
the maximal runs of dropped packets behind the first that arrives, the last of them
at the end of session at the latest.
-/

namespace Nts.Mold
open Reading Itch Segments

/-- A packet that was built, and whether it was dropped. -/
structure Sent where
  packet : Packer.Packed
  dropped : Bool

namespace Sent

/-- The number of its messages. -/
def count (x : Sent) : Nat := x.packet.messages.length

/-- The bytes of the packets that arrive. -/
def arriving (sent : List Sent) : List (List Byte) := (sent.filter fun x => !x.dropped).map fun x => x.packet.bytes

/-- The messages of the packets that arrive. -/
def delivered (sent : List Sent) : List (List Byte) := (sent.filter fun x => !x.dropped).flatMap fun x => x.packet.messages

/-- The gap that a run of packets leaves. -/
def gapOf (run : List Sent) : Gap :=
  ⟨(run.head?.map fun x => x.packet.sequence).getD 0, .ofNat 64 (run.map count).sum⟩

/-- The gaps of the maximal runs of dropped packets. -/
def gapsOf (sent : List Sent) : List Gap := (segments (fun x : Sent => !x.dropped) sent).map gapOf

/-- From the first packet that arrives on. -/
def fromFirst (sent : List Sent) : List Sent := sent.dropWhile fun x => x.dropped

section
variable {x : Sent} (sent : List Sent)

theorem arriving_dropped (lost : x.dropped = true) : arriving (x :: sent) = arriving sent := by
  rw [arriving, List.filter_cons, lost]
  rfl

theorem arriving_kept (arrives : x.dropped = false) : arriving (x :: sent) = x.packet.bytes :: arriving sent := by
  rw [arriving, List.filter_cons, arrives]
  rfl

theorem delivered_dropped (lost : x.dropped = true) : delivered (x :: sent) = delivered sent := by
  rw [delivered, List.filter_cons, lost]
  rfl

theorem delivered_kept (arrives : x.dropped = false) :
    delivered (x :: sent) = x.packet.messages ++ delivered sent := by
  rw [delivered, List.filter_cons, arrives]
  rfl

end

end Sent

/-! ## Consecutive packets -/

/-- Packets of messages whose sequences follow one another from `q` up to `e`. -/
def Consecutive (s : Session) : Nat → List Sent → Nat → Prop
  | q, [], e => q = e
  | q, x :: xs, e =>
    (x.packet.sequence.toNat = q ∧ x.packet.bytes = packetOf s x.packet.sequence x.packet.messages ∧
      x.packet.messages ≠ [] ∧ x.count < 0xFFFF ∧ ∀ m ∈ x.packet.messages, Framed m) ∧
    Consecutive s (q + x.count) xs e

namespace Consecutive
open Sent
variable {s : Session} {q r e : Nat} {xs ys : List Sent}

theorem append (one : Consecutive s q xs r) (two : Consecutive s r ys e) : Consecutive s q (xs ++ ys) e := by
  induction xs generalizing q with
  | nil =>
    obtain rfl : q = r := one
    exact two
  | cons x xs ih => exact ⟨one.1, ih one.2⟩

/-- The messages fill the numbers. -/
theorem total (consecutive : Consecutive s q xs e) : e = q + (xs.map count).sum := by
  induction xs generalizing q with
  | nil =>
    obtain rfl : q = e := consecutive
    rfl
  | cons x xs ih =>
    rw [ih consecutive.2, List.map_cons, List.sum_cons, Nat.add_assoc]

theorem lt_of_ne_nil (consecutive : Consecutive s q xs e) (nonempty : xs ≠ []) : q < e := by
  cases xs with
  | nil => exact absurd rfl nonempty
  | cons x xs =>
    have positive : 0 < x.count := List.length_pos_of_ne_nil consecutive.1.2.2.1
    have total := consecutive.2.total
    omega

end Consecutive

/-! ## The decoder behind the drops -/

namespace Decoder
open Sent
variable {d : Decoder} {s : Session} {q e : Nat}

/-- The gap behind a run of dropped packets is the gap of the run. -/
theorem missing_run {run : List Sent} (dropped : ∀ x ∈ run, x.dropped = true) (reached : BitVec 64)
    (consecutive : Consecutive s d.expected.toNat run reached.toNat) : d.missing reached = gapsOf run := by
  unfold missing
  cases run with
  | nil =>
    have here : d.expected.toNat = reached.toNat := consecutive
    rw [if_neg (by rw [BitVec.lt_def, here]; exact Nat.lt_irrefl _)]
    rfl
  | cons x xs =>
    have below := consecutive.lt_of_ne_nil (List.cons_ne_nil x xs)
    have total := consecutive.total
    have first : x.packet.sequence = d.expected := BitVec.eq_of_toNat_eq consecutive.1.1
    have size : reached - d.expected = .ofNat 64 ((x :: xs).map count).sum := by
      apply BitVec.eq_of_toNat_eq
      have small := reached.isLt
      rw [BitVec.toNat_sub_of_le (Nat.le_of_lt below), BitVec.toNat_ofNat, Nat.mod_eq_of_lt (by omega)]
      omega
    have one : segments (fun x : Sent => !x.dropped) (x :: xs) = [x :: xs] := by
      apply segments_of_none
      · intro y member
        rw [dropped y member]
        rfl
      · exact List.cons_ne_nil x xs
    rw [if_pos (show d.expected < reached from below), gapsOf, one, size, ← first]
    rfl

theorem gapsOf_append_cons (run sent : List Sent) {x : Sent} (arrives : x.dropped = false) :
    gapsOf (run ++ x :: sent) = gapsOf run ++ gapsOf sent := by
  rw [gapsOf, segments_append_cons _ _ _ (by rw [arrives]; rfl), List.map_append]
  rfl

/-- A packet of a consecutive list that arrives. -/
theorem step_sent {x : Sent} {rest : List Sent} (ahead : Consecutive s q (x :: rest) e) (small : e < 2 ^ 64) {a : Arrival}
    (bytes : a.bytes = x.packet.bytes) (ready : d.Ready s x.packet.sequence) (clean : d.Clean) :
    (d.step a).1.Clean ∧ (d.step a).1.At s (d.step a).1.expected ∧ (d.step a).1.expected.toNat = q + x.count ∧
      (d.step a).2.messages = x.packet.messages ∧ (d.step a).2.noted = d.missed x.packet.sequence := by
  obtain ⟨⟨sequence, packed, nonempty, below, framed⟩, later⟩ := ahead
  rw [packed] at bytes
  obtain ⟨clean', along, messages, noted⟩ := step_packet bytes framed nonempty below ready clean
  refine ⟨clean', ⟨along.started, along.session, rfl⟩, ?_, messages, noted⟩
  have total := later.total
  have count : ((BitVec.ofNat 16 x.count).setWidth 64).toNat = x.count := by
    rw [BitVec.toNat_setWidth, BitVec.toNat_ofNat]
    omega
  rw [along.expected, BitVec.toNat_add, sequence]
  show (q + ((BitVec.ofNat 16 x.count).setWidth 64).toNat) % 2 ^ 64 = q + x.count
  rw [count]
  exact Nat.mod_eq_of_lt (by omega)

/-- Behind a delivered packet: a run of drops is held back until the next packet arrives or the session ends. -/
theorem drops_run {run sent : List Sent} (dropped : ∀ x ∈ run, x.dropped = true)
    (before : Consecutive s d.expected.toNat run q) (ahead : Consecutive s q sent e) (last : BitVec 64)
    (final : last.toNat = e) (here : d.At s d.expected) (clean : d.Clean) {arrivals : List Arrival}
    (carried : arrivals.map Arrival.bytes = arriving sent ++ [encodeHeader ⟨s, last, kEndOfSession⟩]) :
    (Runs.answers step d arrivals).flatMap Heard.messages = delivered sent ∧
      (Runs.answers step d arrivals).flatMap Heard.noted = gapsOf (run ++ sent) ∧ (Runs.after step d arrivals).Clean := by
  have small : e < 2 ^ 64 := by
    rw [← final]
    exact last.isLt
  induction sent generalizing d run q arrivals with
  | nil =>
    obtain ⟨a, as, rfl, bytes, rest⟩ := List.map_eq_cons_iff.mp carried
    obtain rfl := List.map_eq_nil_iff.mp rest
    obtain rfl : q = e := ahead
    rw [← final] at before
    have ready : d.Ready s last := fun _ => ⟨here.session, fun past => absurd before.total (by
      have past' : last.toNat < d.expected.toNat := past
      omega)⟩
    obtain ⟨clean', _, messages, noted⟩ := step_end bytes ready clean
    rw [missed, here.started, if_pos rfl, missing_run dropped last before] at noted
    simp only [Runs.answers, Runs.after_cons, Runs.after_nil, List.flatMap_cons, List.flatMap_nil, List.append_nil,
      messages, noted, true_and]
    exact ⟨rfl, clean'⟩
  | cons x sent ih =>
    cases lost : x.dropped with
    | true =>
      rw [arriving_dropped sent lost] at carried
      have dropped' : ∀ y ∈ run ++ [x], y.dropped = true := by
        intro y member
        rcases List.mem_append.mp member with old | new
        · exact dropped y old
        · rwa [List.mem_singleton.mp new]
      have extended : Consecutive s d.expected.toNat (run ++ [x]) (q + x.count) := before.append ⟨ahead.1, rfl⟩
      have rest := ih dropped' extended ahead.2 here clean carried
      rwa [List.append_assoc, List.singleton_append, ← delivered_dropped sent lost] at rest
    | false =>
      rw [arriving_kept sent lost, List.cons_append] at carried
      obtain ⟨a, as, rfl, bytes, rest⟩ := List.map_eq_cons_iff.mp carried
      have sequence := ahead.1.1
      rw [← sequence] at before
      have ready : d.Ready s x.packet.sequence := fun _ => ⟨here.session, fun past => absurd before.total (by
        have past' : x.packet.sequence.toNat < d.expected.toNat := past
        omega)⟩
      obtain ⟨clean', here', reached, messages, noted⟩ := step_sent ahead small bytes ready clean
      rw [missed, here.started, if_pos rfl, missing_run dropped _ before] at noted
      have vacuous : ∀ y ∈ ([] : List Sent), y.dropped = true := fun y member => (List.not_mem_nil member).elim
      obtain ⟨heard, gaps, clean''⟩ := ih vacuous (by exact reached) ahead.2 here' clean' rest
      rw [List.nil_append] at gaps
      simp only [Runs.answers, Runs.after_cons, List.flatMap_cons, messages, noted, heard, gaps,
        delivered_kept sent lost, gapsOf_append_cons run sent lost, true_and]
      exact clean''

/-- From the start: nothing is noted before the first packet that arrives. -/
theorem drops_start {sent : List Sent} (ahead : Consecutive s q sent e) (last : BitVec 64) (final : last.toNat = e)
    (fresh : d.started = false) (clean : d.Clean) {arrivals : List Arrival}
    (carried : arrivals.map Arrival.bytes = arriving sent ++ [encodeHeader ⟨s, last, kEndOfSession⟩]) :
    (Runs.answers step d arrivals).flatMap Heard.messages = delivered sent ∧
      (Runs.answers step d arrivals).flatMap Heard.noted = gapsOf (fromFirst sent) ∧
      (Runs.after step d arrivals).Clean := by
  have unstarted : ∀ q, d.Ready s q := fun q started => by
    rw [fresh] at started
    cases started
  have unmissed : ∀ q, d.missed q = [] := fun q => if_neg (by rw [fresh]; exact Bool.false_ne_true)
  induction sent generalizing q with
  | nil =>
    obtain ⟨a, as, rfl, bytes, rest⟩ := List.map_eq_cons_iff.mp carried
    obtain rfl := List.map_eq_nil_iff.mp rest
    obtain ⟨clean', _, messages, noted⟩ := step_end bytes (unstarted last) clean
    rw [unmissed] at noted
    simp only [Runs.answers, Runs.after_cons, Runs.after_nil, List.flatMap_cons, List.flatMap_nil, List.append_nil,
      messages, noted]
    exact ⟨rfl, rfl, clean'⟩
  | cons x sent ih =>
    cases lost : x.dropped with
    | true =>
      rw [arriving_dropped sent lost] at carried
      rw [delivered_dropped sent lost, fromFirst, List.dropWhile_cons_of_pos lost]
      exact ih ahead.2 carried
    | false =>
      have small : e < 2 ^ 64 := by
        rw [← final]
        exact last.isLt
      rw [arriving_kept sent lost, List.cons_append] at carried
      obtain ⟨a, as, rfl, bytes, rest⟩ := List.map_eq_cons_iff.mp carried
      obtain ⟨clean', here', reached, messages, noted⟩ := step_sent ahead small bytes (unstarted _) clean
      rw [unmissed] at noted
      have vacuous : ∀ y ∈ ([] : List Sent), y.dropped = true := fun y member => (List.not_mem_nil member).elim
      obtain ⟨heard, gaps, clean''⟩ := drops_run vacuous (by exact reached) ahead.2 last final here' clean' rest
      have first : fromFirst (x :: sent) = [] ++ x :: sent := List.dropWhile_cons_of_neg (by rw [lost]; decide)
      rw [first, gapsOf_append_cons [] sent lost]
      simp only [Runs.answers, Runs.after_cons, List.flatMap_cons, messages, noted, heard, gaps,
        delivered_kept sent lost, true_and]
      exact ⟨rfl, clean''⟩

end Decoder

/-! ## The packets of a packer -/

namespace Packer
variable {p : Packer} {pending : List (List Byte)} {calls : List Call}

/-- The calls of a sender that flushes non-empty packets only and has not ended the session. -/
def Flushes (p : Packer) : Call → Prop
  | .tryAdd msg => Framed msg
  | .finish => p.empty = false
  | .endOfSession => False

instance (p : Packer) : ∀ c, Decidable (p.Flushes c)
  | .tryAdd msg => inferInstanceAs (Decidable (Framed msg))
  | .finish => inferInstanceAs (Decidable (_ = _))
  | .endOfSession => inferInstanceAs (Decidable False)

/-- The packets of such a sender are consecutive. -/
theorem packed_consecutive (holds : p.Holds pending) (flushes : Runs.Admitted step Flushes p calls) {sent : List Sent}
    (built : sent.map Sent.packet = packed p pending calls) (fits : p.sequence.toNat + (sent.map Sent.count).sum < 2 ^ 64) :
    Consecutive p.session p.sequence.toNat sent (Runs.after step p calls).sequence.toNat ∧
      (Runs.after step p calls).session = p.session ∧ ∃ pending', (Runs.after step p calls).Holds pending' := by
  induction calls generalizing p pending sent with
  | nil =>
    obtain rfl := List.map_eq_nil_iff.mp built
    exact ⟨rfl, rfl, pending, holds⟩
  | cons c cs ih =>
    obtain ⟨allowed, later⟩ := flushes
    cases c with
    | tryAdd msg =>
      rcases holds.tryAdd allowed with refused | ⟨p', stores, added, holds', session, sequence, _⟩
      · rw [step, refused] at later
        rw [packed, refused] at built
        rw [Runs.after_cons, step, refused]
        exact ih holds later built fits
      · rw [step, added] at later
        rw [packed, added] at built
        rw [Runs.after_cons, step, added, ← session, ← sequence]
        rw [← sequence] at fits
        exact ih holds' later built fits
    | finish =>
      obtain ⟨packet, holds', _⟩ := holds.finish
      obtain ⟨x, xs, rfl, here, rest⟩ := List.map_eq_cons_iff.mp built
      have nonempty : pending ≠ [] := by
        intro nothing
        have counted := holds.counted
        rw [nothing] at counted
        have zero : p.count = 0 := BitVec.eq_of_toNat_eq counted
        rw [Flushes, empty, zero] at allowed
        cases allowed
      have count : x.count = pending.length := by rw [Sent.count, here]
      have below := holds.below
      have sequence : p.finish.1.sequence.toNat = p.sequence.toNat + x.count := by
        rw [List.map_cons, List.sum_cons, count] at fits
        show (p.sequence + p.count.setWidth 64).toNat = _
        rw [BitVec.toNat_add, BitVec.toNat_setWidth, holds.counted, count]
        omega
      rw [List.map_cons, List.sum_cons, ← Nat.add_assoc, ← sequence] at fits
      obtain ⟨consecutive, final⟩ := ih holds' later rest fits
      refine ⟨⟨⟨?_, ?_, ?_, ?_, ?_⟩, ?_⟩, final⟩
      · rw [here]
      · rw [here, packet]
        rfl
      · rw [here]
        exact nonempty
      · rw [count]
        exact below
      · rw [here]
        exact holds.framed
      · rw [← sequence]
        exact consecutive
    | endOfSession => exact allowed.elim

end Packer

namespace Sent

theorem sum_gaps (runs : List (List Sent)) :
    ((runs.map gapOf).map Gap.count).sum = .ofNat 64 ((runs.flatten.map count).sum) := by
  induction runs with
  | nil => rfl
  | cons run runs ih =>
    rw [List.map_cons, List.map_cons, List.sum_cons, ih, List.flatten_cons, List.map_append, List.sum_append,
      BitVec.ofNat_add]
    rfl

/-- The gaps miss the messages of the dropped packets. -/
theorem sum_gapsOf (sent : List Sent) :
    ((gapsOf sent).map Gap.count).sum = .ofNat 64 ((sent.filter fun x => x.dropped).map count).sum := by
  rw [gapsOf, sum_gaps, flatten_segments]
  simp only [Bool.not_not]

end Sent

/-- **Drops.** Any messages, packed by any calls that flush non-empty packets only; any of the packets
dropped, the others and the end of session arriving in order. The decoder delivers the messages of
the packets that arrive, and notes the maximal runs of dropped packets behind the first of these,
each once; it counts the messages dropped there, and no duplicate or malformed packet. -/
theorem drops_reported (session : Session) (firstSequence : BitVec 64) (maxPayload : Nat) (calls : List Packer.Call)
    (flushes : Runs.Admitted Packer.step Packer.Flushes (.new session firstSequence maxPayload) calls)
    (fits : firstSequence.toNat + ((Packer.packed (.new session firstSequence maxPayload) [] calls).flatMap
      Packer.Packed.messages).length < 2 ^ 64)
    (sent : List Sent) (built : sent.map Sent.packet = Packer.packed (.new session firstSequence maxPayload) [] calls)
    (arrivals : List Arrival) (carried : arrivals.map Arrival.bytes = Sent.arriving sent ++
      (Runs.after Packer.step (.new session firstSequence maxPayload) calls).endOfSession.2.packet.toList) :
    (Runs.answers Decoder.step {} arrivals).flatMap Heard.messages = Sent.delivered sent ∧
      (Runs.answers Decoder.step {} arrivals).flatMap Heard.noted = Sent.gapsOf (Sent.fromFirst sent) ∧
      (Runs.after Decoder.step {} arrivals).gapsTotal = (Sent.gapsOf (Sent.fromFirst sent)).length ∧
      (Runs.after Decoder.step {} arrivals).gaps = (Sent.gapsOf (Sent.fromFirst sent)).take Decoder.kMaxGaps ∧
      (Runs.after Decoder.step {} arrivals).gapMessages.toNat =
        (((Sent.fromFirst sent).filter fun x => x.dropped).map Sent.count).sum ∧
      (Runs.after Decoder.step {} arrivals).duplicates = 0 ∧ (Runs.after Decoder.step {} arrivals).malformed = 0 := by
  have holds := Packer.holds_new session firstSequence maxPayload
  have messages : ((Packer.packed (.new session firstSequence maxPayload) [] calls).flatMap
      Packer.Packed.messages).length = (sent.map Sent.count).sum := by
    rw [← built, List.length_flatMap, List.map_map]
    rfl
  rw [messages] at fits
  obtain ⟨consecutive, same, pending, final⟩ := Packer.packed_consecutive holds flushes built fits
  rw [final.endOfSession.1, same] at carried
  obtain ⟨heard, noted, clean⟩ := Decoder.drops_start (d := {}) consecutive _ rfl rfl ⟨rfl, rfl, rfl⟩ carried
  have logged := Decoder.logged_run {} arrivals
  rw [noted] at logged
  have missed := logged.missed
  rw [Sent.sum_gapsOf] at missed
  have less : (((Sent.fromFirst sent).filter fun x => x.dropped).map Sent.count).sum ≤ (sent.map Sent.count).sum :=
    ((List.filter_sublist.trans (List.dropWhile_sublist _)).map Sent.count).sum_le_sum fun _ _ => Nat.zero_le _
  refine ⟨heard, noted, logged.total.trans (Nat.zero_add _), logged.listed, ?_, clean.duplicates, clean.malformed⟩
  rw [missed, BitVec.toNat_add, BitVec.toNat_ofNat]
  show (0 + _ % 2 ^ 64) % 2 ^ 64 = _
  omega

/-- Five packets, of which the first and the fourth arrive: one gap in between, one before the end of session. -/
theorem drops_reported_run : (Runs.answers Decoder.step {} [.ofBytes (packetOf noSession 1#64 [[1#8]]),
    .ofBytes (packetOf noSession 5#64 [[5#8]]),
    .ofBytes (encodeHeader ⟨noSession, 7#64, kEndOfSession⟩)]).flatMap Heard.noted =
      [⟨2#64, 3#64⟩, ⟨6#64, 1#64⟩] := by
  have noted := (drops_reported noSession 1#64 6 [.tryAdd [1#8], .finish, .tryAdd [2#8], .finish, .tryAdd [3#8],
    .tryAdd [4#8], .finish, .tryAdd [5#8], .finish, .tryAdd [6#8], .finish]
    (by decide +kernel) (by decide +kernel)
    ((Packer.packed (.new noSession 1#64 6) [] [.tryAdd [1#8], .finish, .tryAdd [2#8], .finish, .tryAdd [3#8],
      .tryAdd [4#8], .finish, .tryAdd [5#8], .finish, .tryAdd [6#8], .finish]).zipWith Sent.mk
      [false, true, true, false, true])
    (by decide +kernel)
    [.ofBytes (packetOf noSession 1#64 [[1#8]]), .ofBytes (packetOf noSession 5#64 [[5#8]]),
      .ofBytes (encodeHeader ⟨noSession, 7#64, kEndOfSession⟩)] (by decide +kernel)).2.1
  exact noted.trans (by decide +kernel)

end Nts.Mold
