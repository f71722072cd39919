import Nts.Mold.DecoderSteps

/-!
# All or nothing

The blocks of a packet are walked twice, once to check them and once to hand them out. Whatever
the packet, the sink gets every block of a packet that passes the checks and no block of any
other. The first walk counts in 32 bits, so a packet of 12 GiB and more may pass with another number of blocks than its
header says.
-/

namespace Nts.Mold
open Reading Itch

namespace Decoder

/-- The calls a packet makes to the sink. -/
def handed (d : Decoder) (a : Arrival) : List (MessageView × BitVec 64) := ((d.onPacket a.pkt).value a.mem).2.sunk

/-- The packet passes every check. -/
def Delivers (d : Decoder) (a : Arrival) : Prop :=
  kHeaderSize ≤ a.pkt.len ∧ a.header.messageCount ≠ kHeartbeat ∧ a.header.messageCount ≠ kEndOfSession ∧
    ¬ a.header.sequence < (d.adopt a.header).expected ∧ a.Passes

variable {d : Decoder} {a : Arrival}

theorem carries_of_delivers (d : Decoder) (delivers : d.Delivers a) : d.Carries a :=
  ⟨delivers.1, ⟨delivers.2.2.1, delivers.2.1⟩, delivers.2.2.2.1⟩

/-- A packet that passes is handed out block by block. -/
theorem handed_of_delivers (d : Decoder) (delivers : d.Delivers a) :
    d.handed a = (viewsFrom (a.pkt.data + kHeaderSize) a.messages).map (·, a.pkt.rxTsc) := by
  obtain ⟨long, notHeartbeat, notEnd, ahead, passes⟩ := delivers
  rw [handed, onPacket_eq, if_neg (Nat.not_lt.mpr long), if_neg notEnd, if_neg notHeartbeat, if_neg ahead,
    if_neg (not_not.mpr passes)]

theorem counts_adopt (d : Decoder) (h : Header) :
    (d.adopt h).applied = d.applied ∧ (d.adopt h).messages = d.messages := by
  unfold adopt
  split
  · exact ⟨rfl, rfl⟩
  · split <;> exact ⟨rfl, rfl⟩

theorem counts_afterMarker (d : Decoder) (h : Header) :
    (d.afterMarker h).applied = d.applied ∧ (d.afterMarker h).messages = d.messages := ⟨rfl, rfl⟩

theorem counts_afterData (d : Decoder) (h : Header) : (d.afterData h).applied = d.applied + 1 ∧
    (d.afterData h).messages = d.messages + h.messageCount.setWidth 64 := ⟨rfl, rfl⟩

/-- No other packet is handed out, nor counted as delivered. -/
theorem handed_of_not_delivers (d : Decoder) (refused : ¬ d.Delivers a) :
    d.handed a = [] ∧ (d.step a).1.applied = d.applied ∧ (d.step a).1.messages = d.messages := by
  have adopted := d.counts_adopt a.header
  have outcome := d.outcome a
  have nothing : d.handed a = [] := by
    rw [handed, onPacket_eq]
    by_cases short : a.pkt.len < kHeaderSize
    · rw [if_pos short]
    by_cases marker : a.header.messageCount = kEndOfSession
    · rw [if_neg short, if_pos marker]
    by_cases heartbeat : a.header.messageCount = kHeartbeat
    · rw [if_neg short, if_neg marker, if_pos heartbeat]
    by_cases past : a.header.sequence < (d.adopt a.header).expected
    · rw [if_neg short, if_neg marker, if_neg heartbeat, if_pos past]
    have broken : ¬ a.Passes := fun passes => refused ⟨Nat.le_of_not_lt short, heartbeat, marker, past, passes⟩
    rw [if_neg short, if_neg marker, if_neg heartbeat, if_neg past, if_pos broken]
  refine ⟨nothing, ?_⟩
  generalize d.step a = r at outcome ⊢
  obtain ⟨d', heard⟩ := r
  dsimp only at outcome ⊢
  cases outcome with
  | short short => exact ⟨rfl, rfl⟩
  | marker long marker =>
    rw [(counts_afterMarker _ _).1, (counts_afterMarker _ _).2]
    exact adopted
  | heartbeat long heartbeat => exact adopted
  | duplicate long counted past => exact adopted
  | broken carries broken => exact adopted
  | delivered carries passes =>
    exact (refused ⟨carries.long, carries.counted.2, carries.counted.1, carries.ahead, passes⟩).elim

/-- Every block of a packet that passes is handed out, and there is one. -/
theorem length_handed (d : Decoder) (delivers : d.Delivers a) : (d.handed a).length = a.messages.length ∧ d.handed a ≠ [] := by
  have length : (d.handed a).length = a.messages.length := by
    rw [d.handed_of_delivers delivers, List.length_map, length_viewsFrom]
  refine ⟨length, fun nothing => delivers.2.1 ?_⟩
  have count := (a.passes_iff.mp delivers.2.2.2.2).2
  rw [nothing] at length
  rw [← length] at count
  exact BitVec.eq_of_toNat_eq count.symm

end Decoder

/-- **All or nothing.** For every state and every packet the sink is called for each block of the body or not
at all. It is called exactly when the packet has a header, carries messages, does not lie in
the past of the adopted session, and its body is blocks alone, as many as it counts modulo 2^32; then the views handed out are
those blocks in order, inside the packet, and the counters grow by one packet and the messages it counts. In a packet
shorter than 2^32 least blocks the blocks are as many as it counts. -/
theorem delivery_all_or_nothing (d : Decoder) (a : Arrival) :
    (d.handed a = [] ∨ (d.handed a).length = a.messages.length) ∧
    (d.handed a ≠ [] ↔ d.Delivers a) ∧
    (d.Delivers a →
      a.body = a.messages.flatMap block ∧ (∀ m ∈ a.messages, Framed m) ∧
      a.messages.length % 2 ^ 32 = a.header.messageCount.toNat ∧
      d.handed a = (viewsFrom (a.pkt.data + kHeaderSize) a.messages).map (·, a.pkt.rxTsc) ∧
      (d.handed a).map (fun call => call.1.bytes a.mem) = a.messages ∧
      (∀ call ∈ d.handed a, a.pkt.data + kHeaderSize ≤ call.1.data ∧
        call.1.data + call.1.size ≤ a.pkt.data + a.pkt.len) ∧
      (d.step a).1.applied = d.applied + 1 ∧
      (d.step a).1.messages = d.messages + a.header.messageCount.setWidth 64) ∧
    (¬ d.Delivers a → (d.step a).1.applied = d.applied ∧ (d.step a).1.messages = d.messages) ∧
    (a.pkt.len < kHeaderSize + 3 * 2 ^ 32 →
      (a.Passes ↔ a.Whole) ∧ (d.handed a = [] ∨ (d.handed a).length = a.header.messageCount.toNat)) := by
  have exactly : a.pkt.len < kHeaderSize + 3 * 2 ^ 32 → a.Passes → a.Whole := Arrival.counted_of_short
  by_cases delivers : d.Delivers a
  · have views := d.handed_of_delivers delivers
    have passes := delivers.2.2.2.2
    have blocks := passes.body
    obtain ⟨length, called⟩ := d.length_handed delivers
    have counted := (a.passes_iff.mp passes).2
    refine ⟨.inr length, iff_of_true called delivers,
      fun _ => ⟨blocks, (parse_spec a.body).2.1, counted, views, ?_, ?_, ?_⟩,
      fun refused => (refused delivers).elim, fun short => ⟨⟨exactly short, Arrival.Whole.passes⟩, .inr ?_⟩⟩
    · rw [views]
      exact Decoder.sunk_bytes a
    · intro call member
      rw [views] at member
      obtain ⟨mv, inside, rfl⟩ := List.mem_map.mp member
      have bounds := viewsFrom_inside inside
      have size := congrArg List.length blocks
      have long := delivers.1
      rw [Arrival.body, length_bytesAt] at size
      dsimp only
      omega
    · rw [Decoder.step_delivered (d.carries_of_delivers delivers) passes]
      have adopted := d.counts_adopt a.header
      generalize d.adopt a.header = u at adopted ⊢
      dsimp only
      rw [(Decoder.counts_afterData _ _).1, (Decoder.counts_afterData _ _).2, adopted.1, adopted.2]
      exact ⟨rfl, rfl⟩
    · rw [length, a.length_messages (exactly short passes)]
  · obtain ⟨nothing, unchanged⟩ := d.handed_of_not_delivers delivers
    exact ⟨.inl nothing, iff_of_false (not_not.mpr nothing) delivers, fun other => (delivers other).elim,
      fun _ => unchanged, fun short => ⟨⟨exactly short, Arrival.Whole.passes⟩, .inl nothing⟩⟩

/-- Where 32 bits take the number of its blocks for one, a packet that counts one is handed out, all of it. -/
theorem handed_oneCounted {n : Nat} (wraps : n % 2 ^ 32 = 1) : (({} : Decoder).handed (.oneCounted n)).length = n := by
  obtain ⟨long, header, passes, length⟩ := Arrival.of_oneCounted wraps
  have delivers : ({} : Decoder).Delivers (.oneCounted n) := by
    refine ⟨long, ?_, ?_, ?_, passes⟩
    · rw [header]
      decide
    · rw [header]
      decide
    · rw [header]
      decide
  rw [(Decoder.length_handed _ delivers).1, length]

/-- A packet of 2^32 + 1 messages that counts one: the sink is called for all of them. -/
theorem blocks_miscounted : ¬ ∀ (d : Decoder) (a : Arrival),
    d.handed a = [] ∨ (d.handed a).length = a.header.messageCount.toNat := by
  intro all
  -- behind a name: the number is not to be counted down
  obtain ⟨n, wraps, more⟩ : ∃ n, n % 2 ^ 32 = 1 ∧ n ≠ 1 := ⟨2 ^ 32 + 1, by decide, by decide⟩
  have length := handed_oneCounted wraps
  rcases all {} (.oneCounted n) with nothing | counted
  · rw [nothing] at length
    rw [← length] at wraps
    cases wraps
  · rw [length, (Arrival.of_oneCounted wraps).2.1] at counted
    exact more counted

end Nts.Mold
