import Nts.Lib.Epochs
import Nts.Mold.DecoderSteps

/-!
# One session after another

A decoder takes a change of the session for another stream: to the packets behind it it is a fresh decoder, and its counters go on.
What it heard of an earlier session, and that one has ended, it keeps.
-/

namespace Nts.Mold
open Itch Reading

/-- The session a packet names, if it has a header. -/
def Arrival.session (a : Arrival) : Option Session := if a.pkt.len < kHeaderSize then none else some a.header.session

theorem Arrival.session_of_long {a : Arrival} (long : kHeaderSize ≤ a.pkt.len) : a.session = some a.header.session :=
  if_neg (Nat.not_lt.mpr long)

namespace Decoder

/-- The session a decoder is in. -/
def inSession (d : Decoder) : Option Session := if d.started then some d.session else none

/-- The session and the sequence of `t`, and the counters of both: `t` is a decoder of its own behind a change. -/
def atop (d t : Decoder) : Decoder where
  expected := t.expected
  lastSequence := if t.applied = 0 ∧ t.eos = false then d.lastSequence else t.lastSequence
  started := t.started
  eos := d.eos || t.eos
  session := t.session
  sessionChanges := d.sessionChanges + 1 + t.sessionChanges
  applied := d.applied + t.applied
  messages := d.messages + t.messages
  duplicates := d.duplicates + t.duplicates
  malformed := d.malformed + t.malformed
  heartbeats := d.heartbeats + t.heartbeats
  gapsTotal := d.gapsTotal + t.gapsTotal
  gapMessages := d.gapMessages + t.gapMessages
  gaps := d.gaps ++ t.gaps.take (kMaxGaps - d.gaps.length)

variable {d t : Decoder} {a : Arrival}

theorem isSome_inSession : d.inSession.isSome = true ↔ d.started = true := by
  rw [inSession]
  cases d.started with
  | false => exact Iff.rfl
  | true => exact Iff.rfl

/-- A packet of another session than the one the decoder is in. -/
theorem changes_iff : Runs.Changes Arrival.session d.inSession a ↔
    kHeaderSize ≤ a.pkt.len ∧ d.started = true ∧ a.header.session ≠ d.session := by
  rw [Runs.Changes, isSome_inSession]
  by_cases short : a.pkt.len < kHeaderSize
  · rw [Arrival.session, if_pos short]
    exact iff_of_false (fun changes => Bool.false_ne_true changes.2.1) fun opens => absurd short (Nat.not_lt.mpr opens.1)
  · have long := Nat.le_of_not_lt short
    rw [a.session_of_long long, inSession]
    constructor
    · rintro ⟨started, _, other⟩
      rw [if_pos started, Ne, Option.some.injEq] at other
      exact ⟨long, started, other⟩
    · rintro ⟨_, started, other⟩
      rw [if_pos started, Ne, Option.some.injEq]
      exact ⟨started, rfl, other⟩

theorem missing_atop (d t : Decoder) (sequence : BitVec 64) : (atop d t).missing sequence = t.missing sequence := rfl

/-- The log takes the gaps of `t` as long as it has room, whether `t` had room for them or not. -/
theorem note_atop (d t : Decoder) (gs : List Gap) : (atop d t).note gs = atop d (t.note gs) := by
  have gaps : d.gaps ++ t.gaps.take (kMaxGaps - d.gaps.length) ++
      gs.take (kMaxGaps - (d.gaps ++ t.gaps.take (kMaxGaps - d.gaps.length)).length) =
      d.gaps ++ (t.gaps ++ gs.take (kMaxGaps - t.gaps.length)).take (kMaxGaps - d.gaps.length) := by
    rw [List.append_assoc, List.take_append, List.take_take, List.length_append, List.length_take]
    congr 3
    omega
  simp only [note, atop, gaps, Nat.add_assoc, BitVec.add_assoc]
  rfl

theorem afterMarker_atop (d t : Decoder) (h : Header) : (atop d t).afterMarker h = atop d (t.afterMarker h) := by
  rw [afterMarker, missing_atop, note_atop]
  simp [atop, note, afterMarker]
  rfl

theorem afterData_atop (d t : Decoder) (h : Header) : (atop d t).afterData h = atop d (t.afterData h) := by
  rw [afterData, missing_atop, note_atop]
  simp [atop, note, afterData, Nat.add_assoc, BitVec.add_assoc]

/-- A packet is taken alike where the session is adopted alike. -/
theorem step_atop_of_adopt {x : Decoder} (long : kHeaderSize ≤ a.pkt.len) (adopted : x.adopt a.header = atop d (t.adopt a.header)) :
    x.step a = (atop d (t.step a).1, (t.step a).2) := by
  rw [step_eq, step_eq, if_neg (Nat.not_lt.mpr long), if_neg (Nat.not_lt.mpr long), adopted]
  generalize t.adopt a.header = u
  split
  · rw [afterMarker_atop, missing_atop]
  split
  · rfl
  split
  · next past => rw [if_pos (show a.header.sequence < u.expected from past)]; rfl
  next ahead =>
  rw [if_neg (show ¬ a.header.sequence < u.expected from ahead)]
  split
  · rfl
  · rw [afterData_atop, missing_atop]

/-- A packet of the session that a decoder is in, or without a header. -/
theorem step_atop (d : Decoder) (given : t.inSession.isSome = true) (goes : ¬ Runs.Changes Arrival.session t.inSession a) :
    (atop d t).step a = (atop d (t.step a).1, (t.step a).2) := by
  by_cases short : a.pkt.len < kHeaderSize
  · rw [step_eq, step_eq, if_pos short, if_pos short]
    rfl
  · have long := Nat.le_of_not_lt short
    have same := Runs.or_of_goes goes given
    rw [a.session_of_long long, Option.some_or] at same
    have started := isSome_inSession.mp given
    rw [inSession, if_pos started, Option.some.injEq] at same
    have kept : ¬ t.Opens a.header := not_or.mpr ⟨by rw [started]; decide, not_not.mpr same⟩
    have kept' : ¬ (atop d t).Opens a.header := kept
    refine step_atop_of_adopt long ?_
    rw [adopt_of_not_opens kept, adopt_of_not_opens kept']

/-- A packet of another session starts a decoder. -/
theorem step_of_changes (changes : Runs.Changes Arrival.session d.inSession a) :
    d.step a = (atop d (({} : Decoder).step a).1, (({} : Decoder).step a).2) := by
  obtain ⟨long, started, other⟩ := changes_iff.mp changes
  refine step_atop_of_adopt long ?_
  rw [adopt_of_opens (.inr other), adopt_of_opens (d := {}) (.inl rfl), if_pos started]
  simp [atop]

/-- Two states in the same session, entered at the same change. -/
structure Same (d d' : Decoder) : Prop where
  started : d'.started = d.started
  session : d'.session = d.session
  changes : d'.sessionChanges = d.sessionChanges

theorem same_afterMarker (d : Decoder) (h : Header) : d.Same (d.afterMarker h) := ⟨rfl, rfl, rfl⟩

theorem same_afterData (d : Decoder) (h : Header) : d.Same (d.afterData h) := ⟨rfl, rfl, rfl⟩

/-- What a packet with a header leaves of the session it adopted. -/
theorem adopted_step (d : Decoder) (long : kHeaderSize ≤ a.pkt.len) : (d.adopt a.header).Same (d.step a).1 := by
  have outcome := d.outcome a
  generalize (d.step a).1 = d', (d.step a).2 = heard at outcome ⊢
  cases outcome with
  | short short => exact absurd long (Nat.not_le.mpr short)
  | marker _ _ => exact same_afterMarker _ _
  | heartbeat _ _ => exact ⟨rfl, rfl, rfl⟩
  | duplicate _ _ _ => exact ⟨rfl, rfl, rfl⟩
  | broken _ _ => exact ⟨rfl, rfl, rfl⟩
  | delivered _ _ => exact same_afterData _ _

theorem step_short (d : Decoder) (short : a.pkt.len < kHeaderSize) : d.step a = ({ d with malformed := d.malformed + 1 }, {}) := by
  rw [step_eq, if_pos short]

/-- The session after a packet is the one it names. -/
theorem inSession_step (d : Decoder) (a : Arrival) : (d.step a).1.inSession = a.session.or d.inSession := by
  by_cases short : a.pkt.len < kHeaderSize
  · rw [step_short d short, Arrival.session, if_pos short, Option.none_or]
    rfl
  · have long := Nat.le_of_not_lt short
    obtain ⟨started, session, _⟩ := d.adopted_step long
    obtain ⟨started', session'⟩ := started_adopt d a.header
    rw [inSession, started, started', session, session', a.session_of_long long, Option.some_or, if_pos rfl]

/-- Behind a change it starts afresh. -/
theorem afresh : Runs.Afresh step Arrival.session inSession {} atop where
  follows := inSession_step
  starts _ _ := step_of_changes
  goes d _ _ := step_atop d

/-- Each change is counted. -/
theorem sessionChanges_step (d : Decoder) (a : Arrival) : (d.step a).1.sessionChanges =
    d.sessionChanges + if Runs.Changes Arrival.session d.inSession a then 1 else 0 := by
  by_cases short : a.pkt.len < kHeaderSize
  · have stays : ¬ Runs.Changes Arrival.session d.inSession a := fun changes => absurd short (Nat.not_lt.mpr (changes_iff.mp changes).1)
    rw [step_short d short, if_neg stays]
    rfl
  · have long := Nat.le_of_not_lt short
    rw [(d.adopted_step long).changes, adopt]
    simp only [changes_iff, long, true_and]
    cases started : d.started with
    | false => simp
    | true =>
      by_cases other : a.header.session = d.session
      · simp [other]
      · simp [other]

end Decoder

/-! ## Runs -/

/-- A history, in the stretches between the changes of the session. -/
def sessions (arrivals : List Arrival) : List (List Arrival) := Runs.epochs Arrival.session arrivals

/-- What a decoder makes of several sessions. -/
structure SessionsApart (arrivals : List Arrival) : Prop where
  /-- The stretches are the history, and the packets of one that have a header name one session. -/
  whole : (sessions arrivals).flatten = arrivals
  one : ∀ s ∈ sessions arrivals, Runs.OneKey Arrival.session s
  /-- Of each is heard what a fresh decoder would make heard of it alone. -/
  heard : Runs.answers Decoder.step {} arrivals = (sessions arrivals).flatMap (Runs.answers Decoder.step {})
  /-- The state is that of the last of these decoders, with the counters of the others. -/
  state : ∃ first others, sessions arrivals = first :: others ∧
    Runs.after Decoder.step {} arrivals = (others.map (Runs.after Decoder.step {})).foldl Decoder.atop (Runs.after Decoder.step {} first)
  changes : (Runs.after Decoder.step {} arrivals).sessionChanges + 1 = (sessions arrivals).length

/-- **Sessions.** -/
theorem sessions_apart (arrivals : List Arrival) : SessionsApart arrivals := by
  obtain ⟨state, heard⟩ := Decoder.afresh.run {} arrivals
  have counted := Decoder.afresh.count Decoder.sessionChanges_step {} arrivals
  refine ⟨Runs.flatten_cut none arrivals, Runs.oneKey_epochs arrivals, heard, ⟨_, _, rfl, state⟩, ?_⟩
  rw [counted, sessions, Runs.epochs, List.length_cons]
  exact congrArg (· + 1) (Nat.zero_add _)

end Nts.Mold
