import Nts.Lib.Ledger
import Nts.Mold.DecoderSteps

/-!
# The sequence contract

Between two changes of session the numbers from the first packet's sequence up to the expected
one are delivered once or noted missing once, whatever arrives. Every step extends the
`Ledger` of the stretch: a gap skips a range, a delivered packet takes one.
-/

namespace Nts.Mold
open Reading Itch

/-- The sequence numbers a gap stands for. -/
def Gap.span (g : Gap) : Span := ⟨g.firstMissing.toNat, g.count.toNat⟩

/-- The numbers of the packet's messages stay below 2^64, and so does the one behind them. -/
def Arrival.Fits (a : Arrival) : Prop :=
  kHeaderSize ≤ a.pkt.len → a.header.messageCount ≠ kEndOfSession →
    a.header.sequence.toNat + a.header.messageCount.toNat ≤ 2 ^ 64 - 1

instance (a : Arrival) : Decidable a.Fits := inferInstanceAs (Decidable (_ → _ → _))

namespace Decoder

/-- The packet begins a stretch: it has a header, and that of the first or of another session. -/
def Begins (d : Decoder) (a : Arrival) : Prop := kHeaderSize ≤ a.pkt.len ∧ d.Opens a.header

instance (d : Decoder) (a : Arrival) : Decidable (d.Begins a) := inferInstanceAs (Decidable (_ ∧ _))

/-- The state the sequence of the packet is compared with. -/
def met (d : Decoder) (a : Arrival) : Decoder := if a.pkt.len < kHeaderSize then d else d.adopt a.header

theorem met_of_long {d : Decoder} {a : Arrival} (long : kHeaderSize ≤ a.pkt.len) : d.met a = d.adopt a.header :=
  if_neg (Nat.not_lt.mpr long)

theorem met_of_not_begins {d : Decoder} {a : Arrival} (same : ¬ d.Begins a) : d.met a = d := by
  rcases Nat.lt_or_ge a.pkt.len kHeaderSize with short | long
  · exact if_pos short
  · rw [met_of_long long]
    exact adopt_of_not_opens fun opens => same ⟨long, opens⟩

section
variable {start : Nat} {taken : List Nat} {skipped : List Span} {d : Decoder} {a : Arrival}

/-- A gap in front of a packet is one more range skipped. -/
theorem ledger_missing (ledger : Ledger start taken skipped d.expected.toNat) (sequence : BitVec 64) :
    Ledger start taken (skipped ++ (d.missing sequence).map Gap.span)
      (if d.expected < sequence then sequence else d.expected).toNat := by
  unfold missing
  split
  · next gap =>
    have below : d.expected.toNat < sequence.toNat := gap
    have size : (sequence - d.expected).toNat = sequence.toNat - d.expected.toNat :=
      BitVec.toNat_sub_of_le (BitVec.le_of_lt gap)
    have skip := ledger.skip (sequence - d.expected).toNat
    rw [size, Nat.add_sub_cancel' (Nat.le_of_lt below)] at skip
    rw [List.map_singleton, Gap.span, size]
    exact skip
  · rw [List.map_nil, List.append_nil]
    exact ledger

/-- One packet extends the ledger and never takes the counter back. -/
theorem ledger_step (ledger : Ledger start taken skipped (d.met a).expected.toNat) (fits : a.Fits) (counted : a.Counted) :
    Ledger start (taken ++ (d.step a).2.numbers) (skipped ++ (d.step a).2.noted.map Gap.span)
      (d.step a).1.expected.toNat ∧ (d.met a).expected ≤ (d.step a).1.expected := by
  have outcome := d.outcome a
  generalize d.step a = r at outcome ⊢
  obtain ⟨d', heard⟩ := r
  dsimp only at outcome ⊢
  cases outcome with
  | short short =>
    rw [met, if_pos short] at ledger ⊢
    rw [List.map_nil, List.append_nil, List.append_nil]
    exact ⟨ledger, BitVec.le_refl _⟩
  | marker long marker =>
    rw [met_of_long long] at ledger ⊢
    have missing := ledger_missing ledger a.header.sequence
    rw [List.append_nil, expected_afterMarker]
    dsimp only
    refine ⟨missing, ?_⟩
    split
    · next gap => exact BitVec.le_of_lt gap
    · exact BitVec.le_refl _
  | heartbeat long heartbeat =>
    rw [met_of_long long] at ledger ⊢
    rw [List.map_nil, List.append_nil, List.append_nil]
    exact ⟨ledger, BitVec.le_refl _⟩
  | duplicate long counted past =>
    rw [met_of_long long] at ledger ⊢
    rw [List.map_nil, List.append_nil, List.append_nil]
    exact ⟨ledger, BitVec.le_refl _⟩
  | broken carries broken =>
    rw [met_of_long carries.long] at ledger ⊢
    rw [List.map_nil, List.append_nil, List.append_nil]
    exact ⟨ledger, BitVec.le_refl _⟩
  | delivered carries passes =>
    rw [met_of_long carries.long] at ledger ⊢
    have length := a.length_messages (counted passes)
    have missing := ledger_missing ledger a.header.sequence
    have reached : (if (d.adopt a.header).expected < a.header.sequence then a.header.sequence
        else (d.adopt a.header).expected) = a.header.sequence := by
      split
      · rfl
      · next noGap => exact BitVec.le_antisymm (BitVec.not_lt.mp carries.ahead) (BitVec.not_lt.mp noGap)
    have bound := fits carries.long carries.counted.1
    have after : (a.header.sequence + a.header.messageCount.setWidth 64).toNat =
        a.header.sequence.toNat + a.header.messageCount.toNat := by
      have narrow := a.header.messageCount.isLt
      rw [BitVec.toNat_add, BitVec.toNat_setWidth, Nat.mod_eq_of_lt (a := a.header.messageCount.toNat) (by omega)]
      exact Nat.mod_eq_of_lt (by omega)
    rw [reached] at missing
    have take := missing.take a.header.messageCount.toNat
    rw [← after] at take
    rw [expected_afterData]
    dsimp only
    rw [length]
    refine ⟨take, ?_⟩
    rw [BitVec.le_def, after]
    have ahead : ¬ a.header.sequence.toNat < (d.adopt a.header).expected.toNat := carries.ahead
    omega

/-- The packets of one stretch extend its ledger. -/
theorem ledger_run {arrivals : List Arrival} (ledger : Ledger start taken skipped d.expected.toNat)
    (same : Runs.Admitted step (fun d a => ¬ d.Begins a) d arrivals) (fits : ∀ a ∈ arrivals, a.Fits)
    (counted : ∀ a ∈ arrivals, a.Counted) :
    Ledger start (taken ++ (Runs.answers step d arrivals).flatMap Heard.numbers)
      (skipped ++ ((Runs.answers step d arrivals).flatMap Heard.noted).map Gap.span)
      (Runs.after step d arrivals).expected.toNat ∧
    Runs.Admitted step (fun d a => d.expected ≤ (d.step a).1.expected) d arrivals := by
  induction arrivals generalizing d taken skipped with
  | nil =>
    rw [Runs.answers, List.flatMap_nil, List.flatMap_nil, List.map_nil, List.append_nil, List.append_nil]
    exact ⟨ledger, trivial⟩
  | cons a as ih =>
    obtain ⟨here, later⟩ := same
    have met := met_of_not_begins here
    obtain ⟨extended, forward⟩ := ledger_step (by rwa [met]) (fits a List.mem_cons_self) (counted a List.mem_cons_self)
    rw [met] at forward
    obtain ⟨final, forwards⟩ := ih extended later (fun a' member => fits a' (List.mem_cons_of_mem _ member))
      fun a' member => counted a' (List.mem_cons_of_mem _ member)
    refine ⟨?_, forward, forwards⟩
    rw [Runs.answers, List.flatMap_cons, List.flatMap_cons, List.map_append, ← List.append_assoc, ← List.append_assoc]
    exact final

end

/-- A stretch is accounted for: every number from where its first packet begins it up to the expected one is delivered once
or noted missing once. -/
def Accounts (d : Decoder) (first : Arrival) (during : List Arrival) : Prop :=
  Ledger (d.adopt first.header).expected.toNat ((Runs.answers step d (first :: during)).flatMap Heard.numbers)
    (((Runs.answers step d (first :: during)).flatMap Heard.noted).map Gap.span)
    (Runs.after step d (first :: during)).expected.toNat

end Decoder

/-- **The sequence contract.** In every run of packets the log lists the first gaps noted, in
order. In every stretch of it, from a packet that begins a session up to the next such packet, in which 32 bits miscount
the blocks of no packet: the numbers delivered and the gaps noted account for all numbers from where the stretch began up to
the expected one, and the expected number never goes back. -/
theorem sequence_contract (arrivals : List Arrival) :
    ((Runs.after Decoder.step {} arrivals).gapsTotal =
        ((Runs.answers Decoder.step {} arrivals).flatMap Heard.noted).length ∧
      (Runs.after Decoder.step {} arrivals).gaps = ((Runs.answers Decoder.step {} arrivals).flatMap Heard.noted).take
        (min (Runs.after Decoder.step {} arrivals).gapsTotal Decoder.kMaxGaps)) ∧
    ∀ before first during, arrivals = before ++ first :: during →
      (Runs.after Decoder.step {} before).Begins first →
      Runs.Admitted Decoder.step (fun d a => ¬ d.Begins a) (Runs.after Decoder.step {} (before ++ [first])) during →
      (∀ a ∈ first :: during, a.Fits) → (∀ a ∈ first :: during, a.Counted) →
      (Runs.after Decoder.step {} before).Accounts first during ∧
      Runs.Admitted Decoder.step (fun d a => d.expected ≤ (d.step a).1.expected)
        (Runs.after Decoder.step {} (before ++ [first])) during := by
  constructor
  · have logged := Decoder.logged_run {} arrivals
    have total := logged.total
    have listed := logged.listed
    generalize (Runs.answers Decoder.step {} arrivals).flatMap Heard.noted = noted at total listed ⊢
    rw [Nat.zero_add] at total
    refine ⟨total, ?_⟩
    rw [listed, List.nil_append, total, List.take_eq_take_iff, List.length_nil]
    omega
  · intro before first during split begins same fits counted
    subst split
    rw [Runs.after_append] at *
    generalize Runs.after Decoder.step {} before = d at *
    unfold Decoder.Accounts
    simp only [Runs.after_cons, Runs.after_nil, Runs.answers, List.flatMap_cons, List.map_append] at *
    have start : Ledger (d.adopt first.header).expected.toNat [] [] (d.met first).expected.toNat := by
      rw [Decoder.met_of_long begins.1]
      exact Ledger.empty _
    obtain ⟨opened, _⟩ := Decoder.ledger_step start (fits first List.mem_cons_self) (counted first List.mem_cons_self)
    exact Decoder.ledger_run opened same (fun a member => fits a (List.mem_cons_of_mem _ member))
      fun a member => counted a (List.mem_cons_of_mem _ member)

/-- One message at 5, one at 8, and the first again: 6 and 7 are missing. -/
theorem sequence_contract_run : Ledger 5 [5, 8] [⟨6, 2⟩] 9 := by
  have contract := ((sequence_contract [.ofBytes (packetOf noSession 5#64 [[1#8]]),
    .ofBytes (packetOf noSession 8#64 [[2#8]]), .ofBytes (packetOf noSession 5#64 [[1#8]])]).2
      [] (.ofBytes (packetOf noSession 5#64 [[1#8]]))
      [.ofBytes (packetOf noSession 8#64 [[2#8]]), .ofBytes (packetOf noSession 5#64 [[1#8]])]
      rfl (by decide +kernel) (by decide +kernel) (by decide +kernel) (by decide +kernel)).1
  unfold Decoder.Accounts at contract
  convert contract using 1 <;> decide +kernel

/-- Where 32 bits take the number of its blocks for one, a packet that counts one takes the expected number one further and
delivers them all. -/
theorem accounts_oneCounted {n : Nat} (wraps : n % 2 ^ 32 = 1) (accounts : ({} : Decoder).Accounts (.oneCounted n) []) : n = 1 := by
  obtain ⟨long, header, passes, length⟩ := Arrival.of_oneCounted wraps
  have carries : ({} : Decoder).Carries (.oneCounted n) := by
    refine ⟨long, ?_, ?_⟩
    · rw [header]
      decide
    · rw [header]
      decide
  have total := accounts.total
  simp only [Runs.answers, Runs.after_cons, Runs.after_nil, List.flatMap_cons, List.flatMap_nil, List.append_nil,
    Decoder.step_delivered carries passes, header, List.length_range', length] at total
  have reached : ((({} : Decoder).adopt ⟨noSession, 1#64, 1#16⟩).afterData ⟨noSession, 1#64, 1#16⟩).expected.toNat = 2 := by decide
  have start : (({} : Decoder).adopt ⟨noSession, 1#64, 1#16⟩).expected.toNat = 1 := by decide
  have nothing : (({} : Decoder).adopt ⟨noSession, 1#64, 1#16⟩).missing 1#64 = [] := by decide
  rw [reached, start, nothing] at total
  simp only [List.map_nil, List.sum_nil] at total
  omega

/-- A packet of 2^32 + 1 messages that counts one: as many numbers are delivered, and the expected one grows by one. -/
theorem sequence_miscounted : ¬ ∀ (before : List Arrival) (first : Arrival) (during : List Arrival),
    (Runs.after Decoder.step {} before).Begins first →
    Runs.Admitted Decoder.step (fun d a => ¬ d.Begins a) (Runs.after Decoder.step {} (before ++ [first])) during →
    (∀ a ∈ first :: during, a.Fits) → (Runs.after Decoder.step {} before).Accounts first during := by
  intro all
  -- behind a name: the number is not to be counted down
  obtain ⟨n, wraps, more⟩ : ∃ n, n % 2 ^ 32 = 1 ∧ n ≠ 1 := ⟨2 ^ 32 + 1, by decide, by decide⟩
  obtain ⟨long, header, _⟩ := Arrival.of_oneCounted wraps
  have fits : ∀ a ∈ [Arrival.oneCounted n], a.Fits := by
    intro a member _ _
    rw [List.mem_singleton.mp member, header]
    decide
  exact more (accounts_oneCounted wraps (all [] _ [] ⟨long, .inl rfl⟩ trivial fits))

end Nts.Mold
