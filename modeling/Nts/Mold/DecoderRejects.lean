import Nts.Mold.DecoderSteps

/-!
# Rejected packets

A packet counted as malformed delivers nothing and notes no gap, but the session rule runs
before the blocks are checked: a packet that opens a stretch and is then rejected leaves
its session and sequence behind. `Sound` is the condition under which no such packet occurs;
in a run that meets it the rejected packets leave no trace but their count.
-/

namespace Nts.Mold
open Reading Itch

namespace Decoder
variable {d : Decoder} {a : Arrival}

/-- The call counts the packet as malformed. -/
def Rejects (d : Decoder) (a : Arrival) : Prop := (d.step a).1.malformed ≠ d.malformed

instance (d : Decoder) (a : Arrival) : Decidable (d.Rejects a) := inferInstanceAs (Decidable (_ ≠ _))

/-- A rejected packet is not heard of, and no field but `malformed` changes. -/
def RejectsWhole (d : Decoder) (a : Arrival) : Prop :=
  d.Rejects a → d.step a = ({ d with malformed := d.malformed + 1 }, {})

/-- The packet is too short for a header, or continues the session, or carries no blocks, or blocks alone and, modulo 2^32, as
many as it says. -/
def Sound (d : Decoder) (a : Arrival) : Prop :=
  a.pkt.len < kHeaderSize ∨ (d.started = true ∧ a.header.session = d.session) ∨
    a.header.messageCount = kEndOfSession ∨ a.header.messageCount = kHeartbeat ∨ a.Passes

theorem malformed_adopt (d : Decoder) (h : Header) : (d.adopt h).malformed = d.malformed := by
  unfold adopt
  split
  · rfl
  · split <;> rfl

theorem malformed_afterMarker (d : Decoder) (h : Header) : (d.afterMarker h).malformed = d.malformed := rfl

theorem malformed_afterData (d : Decoder) (h : Header) : (d.afterData h).malformed = d.malformed := rfl

/-- The session rule leaves a state alone only when the packet continues the session. -/
theorem opens_iff (d : Decoder) (h : Header) : ¬ d.Opens h ↔ d.started = true ∧ h.session = d.session := by
  rw [Opens, not_or, not_not, Bool.not_eq_false]

/-- One packet: its rejection is whole exactly when it is sound. -/
theorem rejectsWhole_iff (d : Decoder) (a : Arrival) : d.RejectsWhole a ↔ d.Sound a := by
  have outcome := d.outcome a
  unfold RejectsWhole Rejects
  generalize d.step a = r at outcome ⊢
  obtain ⟨d', heard⟩ := r
  dsimp only at outcome ⊢
  cases outcome with
  | short short => exact ⟨fun _ => .inl short, fun _ _ => rfl⟩
  | marker long marker =>
    refine ⟨fun _ => .inr (.inr (.inl marker)), fun _ counted => absurd ?_ counted⟩
    rw [malformed_afterMarker, malformed_adopt]
  | heartbeat long heartbeat =>
    exact ⟨fun _ => .inr (.inr (.inr (.inl heartbeat))), fun _ counted => absurd (malformed_adopt _ _) counted⟩
  | duplicate long counted past =>
    refine ⟨fun _ => .inr (.inl ?_), fun _ counted => absurd (malformed_adopt _ _) counted⟩
    rw [← opens_iff]
    intro opens
    rw [adopt_of_opens opens] at past
    exact BitVec.lt_irrefl _ past
  | broken carries broken =>
    by_cases opens : d.Opens a.header
    · have unsound : ¬ d.Sound a := by
        have long := carries.long
        have counted := carries.counted
        rintro (short | continues | marker | heartbeat | passes)
        · omega
        · exact (opens_iff d a.header).mpr continues opens
        · exact counted.1 marker
        · exact counted.2 heartbeat
        · exact broken passes
      refine ⟨fun whole => ?_, fun sound => absurd sound unsound⟩
      have same := congrArg Prod.fst (whole (by rw [malformed_adopt]; exact Nat.succ_ne_self _))
      have changes := congrArg Decoder.sessionChanges same
      have started := congrArg Decoder.started same
      rw [adopt_of_opens opens] at changes started
      dsimp only at changes started
      rw [← started, if_pos rfl] at changes
      exact absurd changes (Nat.succ_ne_self _)
    · rw [adopt_of_not_opens opens]
      exact ⟨fun _ => .inr (.inl ((opens_iff d a.header).mp opens)), fun _ _ => rfl⟩
  | delivered carries passes =>
    refine ⟨fun _ => .inr (.inr (.inr (.inr passes))), fun _ counted => absurd ?_ counted⟩
    rw [malformed_afterData, malformed_adopt]

/-! ## Runs -/

/-- Two states that differ in the count of rejected packets at most. -/
def Alike (d t : Decoder) : Prop := d = { t with malformed := d.malformed }

theorem adopt_malformed (t : Decoder) (n : Nat) (h : Header) :
    { t with malformed := n }.adopt h = { t.adopt h with malformed := n } := by
  unfold adopt
  split
  · rfl
  · split <;> rfl

theorem missing_malformed (t : Decoder) (n : Nat) (sequence : BitVec 64) :
    { t with malformed := n }.missing sequence = t.missing sequence := rfl

theorem afterMarker_malformed (t : Decoder) (n : Nat) (h : Header) :
    { t with malformed := n }.afterMarker h = { t.afterMarker h with malformed := n } := rfl

theorem afterData_malformed (t : Decoder) (n : Nat) (h : Header) :
    { t with malformed := n }.afterData h = { t.afterData h with malformed := n } := rfl

/-- The count of rejected packets decides nothing. -/
theorem Alike.step {t : Decoder} (alike : d.Alike t) (a : Arrival) :
    (d.step a).1.Alike (t.step a).1 ∧ (d.step a).2 = (t.step a).2 ∧ (d.Rejects a ↔ t.Rejects a) := by
  obtain ⟨n, rfl⟩ : ∃ n, d = { t with malformed := n } := ⟨_, alike⟩
  unfold Rejects
  rw [step_eq, step_eq, adopt_malformed, missing_malformed, afterMarker_malformed, afterData_malformed]
  have same := malformed_adopt t a.header
  generalize t.adopt a.header = u at same ⊢
  split
  · exact ⟨rfl, rfl, by simp⟩
  split
  · exact ⟨rfl, rfl, by simp [malformed_afterMarker, same]⟩
  split
  · exact ⟨rfl, rfl, by simp [same]⟩
  split
  · exact ⟨rfl, rfl, by simp [same]⟩
  split
  · exact ⟨rfl, rfl, by simp [same]⟩
  · exact ⟨rfl, rfl, by simp [malformed_afterData, same]⟩

/-- A run without its rejected packets. -/
def kept : Decoder → List Arrival → List Arrival
  | _, [] => []
  | d, a :: as => if d.Rejects a then kept (d.step a).1 as else a :: kept (d.step a).1 as

/-- In a sound run the rejected packets go unnoticed: without them everything heard and
every field but their count would be the same. -/
theorem rejected_unnoticed {t : Decoder} {arrivals : List Arrival} (alike : d.Alike t)
    (sound : Runs.Admitted step Sound d arrivals) :
    (Runs.after step d arrivals).Alike (Runs.after step t (kept d arrivals)) ∧
      (Runs.answers step d arrivals).flatMap Heard.messages =
        (Runs.answers step t (kept d arrivals)).flatMap Heard.messages ∧
      (Runs.answers step d arrivals).flatMap Heard.noted =
        (Runs.answers step t (kept d arrivals)).flatMap Heard.noted := by
  induction arrivals generalizing d t with
  | nil => exact ⟨alike, rfl, rfl⟩
  | cons a as ih =>
    obtain ⟨here, later⟩ := sound
    by_cases rejects : d.Rejects a
    · have whole := (d.rejectsWhole_iff a).mpr here rejects
      have stays : (d.step a).1.Alike t := by
        rw [whole]
        show { d with malformed := d.malformed + 1 } = { t with malformed := d.malformed + 1 }
        rw [alike]
      simp only [kept, rejects, if_true, Runs.after_cons, Runs.answers, List.flatMap_cons]
      obtain ⟨final, messages, noted⟩ := ih stays later
      rw [messages, noted, whole]
      exact ⟨by rw [← whole]; exact final, rfl, rfl⟩
    · obtain ⟨next, heard, _⟩ := alike.step a
      simp only [kept, rejects, if_false, Runs.after_cons, Runs.answers, List.flatMap_cons]
      obtain ⟨final, messages, noted⟩ := ih next later
      rw [messages, noted, heard]
      exact ⟨final, rfl, rfl⟩

end Decoder

/-- **Rejected whole.** In every state a run of packets reaches, a further packet that is counted as
malformed changes nothing else and is not heard of exactly when it is sound. -/
theorem rejected_whole_iff (arrivals : List Arrival) (a : Arrival) :
    (Runs.after Decoder.step {} arrivals).RejectsWhole a ↔ (Runs.after Decoder.step {} arrivals).Sound a :=
  Decoder.rejectsWhole_iff _ a

/-- A header that promises a message and is not followed by one sets the session and the
sequence of a fresh decoder. -/
theorem empty_body_adopted : ¬ ∀ (arrivals : List Arrival) (a : Arrival),
    (Runs.after Decoder.step {} arrivals).RejectsWhole a := by
  intro all
  have whole := all [] ⟨memoryOf (List.replicate 18 0x41#8 ++ [0#8, 1#8]), 0, 20, 0#64⟩ (by decide +kernel)
  exact absurd whole (by decide +kernel)

end Nts.Mold
