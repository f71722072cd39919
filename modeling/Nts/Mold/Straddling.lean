import Nts.Mold.DecoderSteps

/-!
# Packets that begin in the past

A packet is judged by its first sequence number alone. One that begins at `expected_` or behind it is handed out
whole; one that begins before it is a duplicate or a retransmission to the decoder and is ignored whole, also
when it was cut at other boundaries than the original and its last messages are new.
-/

namespace Nts.Mold
open Reading Itch

/-- What the sink heard, each message under its sequence number. -/
def Heard.numbered (heard : Heard) : List (Nat × List Byte) := heard.numbers.zip heard.messages

namespace Decoder

/-- A well-formed data packet of the current session. -/
structure Current (d : Decoder) (a : Arrival) : Prop where
  started : d.started = true
  session : a.header.session = d.session
  long : kHeaderSize ≤ a.pkt.len
  counted : a.header.messageCount ≠ kEndOfSession ∧ a.header.messageCount ≠ kHeartbeat
  whole : a.Whole

/-- The packet is dismissed as a duplicate: it is counted, and nothing else happens. -/
def Dismisses (d : Decoder) (a : Arrival) : Prop := d.step a = ({ d with duplicates := d.duplicates + 1 }, {})

/-- Every message of the packet is delivered. -/
def DeliversAll (d : Decoder) (a : Arrival) : Prop :=
  ∀ i m, a.messages[i]? = some m → (a.header.sequence.toNat + i, m) ∈ (d.step a).2.numbered

/-- Every message of the packet whose number is at least `expected_` is delivered. -/
def DeliversNew (d : Decoder) (a : Arrival) : Prop :=
  ∀ i m, a.messages[i]? = some m → d.expected.toNat ≤ a.header.sequence.toNat + i →
    (a.header.sequence.toNat + i, m) ∈ (d.step a).2.numbered

/-- The packet begins before `expected_` and ends behind it. -/
def Straddles (d : Decoder) (a : Arrival) : Prop :=
  a.header.sequence < d.expected ∧ d.expected.toNat < a.header.sequence.toNat + a.header.messageCount.toNat

instance (d : Decoder) (a : Arrival) : Decidable (d.Straddles a) := inferInstanceAs (Decidable (_ ∧ _))

variable {d : Decoder} {a : Arrival}

theorem Current.adopt (current : d.Current a) : d.adopt a.header = d := by
  apply adopt_of_not_opens
  rintro (fresh | other)
  · rw [current.started] at fresh
    cases fresh
  · exact other current.session

theorem Current.step_past (current : d.Current a) (past : a.header.sequence < d.expected) :
    d.step a = ({ d with duplicates := d.duplicates + 1 }, {}) := by
  have same := current.adopt
  rw [step_eq, same, if_neg (Nat.not_lt.mpr current.long), if_neg current.counted.1, if_neg current.counted.2, if_pos past]

theorem Current.step_ahead (current : d.Current a) (ahead : ¬ a.header.sequence < d.expected) :
    d.step a = (d.afterData a.header, {
      noted := d.missing a.header.sequence
      messages := a.messages
      numbers := List.range' a.header.sequence.toNat a.header.messageCount.toNat }) := by
  have same := current.adopt
  have carries : d.Carries a := ⟨current.long, current.counted, same.symm ▸ ahead⟩
  rw [step_delivered carries current.whole.passes, same, a.length_messages current.whole]

/-- The first number decides whether the packet is dismissed. -/
theorem Current.dismisses_iff (current : d.Current a) : d.Dismisses a ↔ a.header.sequence < d.expected := by
  constructor
  · intro dismissed
    by_contra ahead
    have applied := congrArg (fun r => r.1.applied) (dismissed.symm.trans (current.step_ahead ahead))
    exact absurd applied (Nat.ne_of_lt (Nat.lt_succ_self d.applied))
  · exact current.step_past

/-- A packet that does not begin in the past is delivered whole. -/
theorem Current.deliversAll (current : d.Current a) (ahead : ¬ a.header.sequence < d.expected) : d.DeliversAll a := by
  intro i m member
  obtain ⟨bound, rfl⟩ := List.getElem?_eq_some_iff.mp member
  rw [current.step_ahead ahead, Heard.numbered]
  dsimp only
  rw [← a.length_messages current.whole]
  apply List.mem_iff_getElem.mpr
  refine ⟨i, ?_, ?_⟩
  · rw [List.length_zip, List.length_range', Nat.min_self]
    exact bound
  · rw [List.getElem_zip, List.getElem_range', Nat.one_mul]

/-- New messages are lost exactly in a packet that straddles `expected_`. -/
theorem Current.deliversNew_iff (current : d.Current a) : d.DeliversNew a ↔ ¬ d.Straddles a := by
  have count := a.length_messages current.whole
  constructor
  · rintro delivers ⟨past, beyond⟩
    -- the message that was expected is in the packet, and nothing is heard
    have less : a.header.sequence.toNat < d.expected.toNat := past
    have bound : d.expected.toNat - a.header.sequence.toNat < a.messages.length := by omega
    have heard := delivers _ _ (List.getElem?_eq_getElem bound) (by omega)
    rw [current.step_past past] at heard
    exact absurd heard List.not_mem_nil
  · intro apart i m member new
    by_cases past : a.header.sequence < d.expected
    · obtain ⟨bound, _⟩ := List.getElem?_eq_some_iff.mp member
      exact absurd ⟨past, by omega⟩ apart
    · exact current.deliversAll past i m member

end Decoder

/-- **Packets that begin in the past.** In every state a run of packets reaches, a well-formed data packet of the
current session is dismissed as a duplicate exactly when its first sequence number is below `expected_`, and
delivered whole otherwise. So no new message is thrown away exactly if the packet does not straddle `expected_`. -/
theorem new_messages_delivered (arrivals : List Arrival) (a : Arrival)
    (current : (Runs.after Decoder.step {} arrivals).Current a) :
    ((Runs.after Decoder.step {} arrivals).Dismisses a ↔
      a.header.sequence < (Runs.after Decoder.step {} arrivals).expected) ∧
    (¬ a.header.sequence < (Runs.after Decoder.step {} arrivals).expected →
      (Runs.after Decoder.step {} arrivals).DeliversAll a) ∧
    ((Runs.after Decoder.step {} arrivals).DeliversNew a ↔ ¬ (Runs.after Decoder.step {} arrivals).Straddles a) :=
  ⟨current.dismisses_iff, current.deliversAll, current.deliversNew_iff⟩

/-- Two packets of one message each, the second in its turn. -/
theorem new_messages_delivered_inTurn :
    (Runs.after Decoder.step {} [⟨memoryOf (List.replicate 17 0x00#8 ++ [1#8, 0#8, 1#8, 0#8, 1#8, 0x58#8]), 0, 23, 0#64⟩]).DeliversNew
      ⟨memoryOf (List.replicate 17 0x00#8 ++ [2#8, 0#8, 1#8, 0#8, 1#8, 0x59#8]), 0, 23, 0#64⟩ :=
  (new_messages_delivered
    [⟨memoryOf (List.replicate 17 0x00#8 ++ [1#8, 0#8, 1#8, 0#8, 1#8, 0x58#8]), 0, 23, 0#64⟩]
    ⟨memoryOf (List.replicate 17 0x00#8 ++ [2#8, 0#8, 1#8, 0#8, 1#8, 0x59#8]), 0, 23, 0#64⟩
    ⟨by decide +kernel, by decide +kernel, by decide, by decide +kernel, by decide +kernel⟩).2.2.mpr (by decide +kernel)

/-- Behind message 1, a retransmission of 1 together with the new message 2 is dismissed. -/
theorem straddling_dismissed : ¬ ∀ (arrivals : List Arrival) (a : Arrival), (Runs.after Decoder.step {} arrivals).Current a →
    (Runs.after Decoder.step {} arrivals).DeliversNew a ∧
    ((Runs.after Decoder.step {} arrivals).Dismisses a →
      ∀ i < a.messages.length, a.header.sequence.toNat + i < (Runs.after Decoder.step {} arrivals).expected.toNat) := by
  intro all
  have current : (Runs.after Decoder.step {}
      [⟨memoryOf (List.replicate 17 0x00#8 ++ [1#8, 0#8, 1#8, 0#8, 1#8, 0x58#8]), 0, 23, 0#64⟩]).Current
      ⟨memoryOf (List.replicate 17 0x00#8 ++ [1#8, 0#8, 2#8, 0#8, 1#8, 0x58#8, 0#8, 1#8, 0x59#8]), 0, 26, 0#64⟩ :=
    ⟨by decide +kernel, by decide +kernel, by decide, by decide +kernel, by decide +kernel⟩
  exact current.deliversNew_iff.mp (all _ _ current).1 (by decide +kernel)

end Nts.Mold
