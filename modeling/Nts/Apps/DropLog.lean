import Nts.Apps.Wire
import Nts.Lib.Joining

/-!
# The drop log against the decoder (`apps/replayer/main.cc`, `mold/decoder.h`)

Where the replayer succeeds and the network neither loses nor reorders, what a decoder misses is what the injector
dropped: its gaps are the ranges of the drop log, those that touch joined, less the one in front of the first
packet sent, of which it cannot know.
-/

namespace Nts.Mold
open Itch Reading

/-- A header has its own bytes. -/
theorem encodeHeader_injective {h h' : Header} (same : encodeHeader h = encodeHeader h') : h = h' := by
  have stands : ∀ h, bytesAt (memoryOf (encodeHeader h)) 0 kHeaderSize = encodeHeader h := fun h => by
    rw [← length_encodeHeader h, bytesAt_memoryOf (Nat.le_refl _), List.take_length]
  rw [← value_decodeHeader (stands h), same, value_decodeHeader (stands h')]

end Nts.Mold

namespace Nts.Mold
open HighWater Sent

/-- Whatever arrives in front of it or behind it, the end of session takes a fresh decoder to the last number. -/
theorem reaches_last {s : Session} {q : Nat} {last : BitVec 64} {line : List Sent} (consecutive : Consecutive s q line last.toNat)
    {flights : List (Option Sent)} (onWire : ∀ x, some x ∈ flights → x ∈ line) (ended : none ∈ flights) {arrivals : List Arrival}
    (carried : arrivals.map Arrival.bytes = flights.map (bytesOf (encodeHeader ⟨s, last, kEndOfSession⟩))) :
    (Runs.after Decoder.step {} arrivals).expected.toNat = last.toNat := by
  cases flights with
  | nil => cases ended
  | cons f flights =>
    obtain ⟨d, _, start, inside, run⟩ := carried_start consecutive onWire carried
    rw [run.expected, start]
    exact (consecutive.line.raised_le onWire inside).2 ended

end Nts.Mold

namespace Nts.Apps
open Reading Itch Mold HighWater

/-- The numbers of a row of the drop log. -/
def DropEntry.span (row : DropEntry) : Span := ⟨row.first.toNat, row.count.toNat⟩

/-- The ranges of a drop log, joined, less the one that nothing precedes. -/
def DropEntry.found (drops : List DropEntry) : List Span :=
  (Span.joined (drops.map DropEntry.span)).filter fun s => s.first ≠ 1

namespace ScheduleEntry
variable {q e : BitVec 64} {rows : List ScheduleEntry}

/-- The sequence number of the first message. -/
def start (row : ScheduleEntry) : Nat := row.sequence.toNat

/-- The sequence number behind the last message. -/
def behind (row : ScheduleEntry) : Nat := row.start + row.count.toNat

/-- Rows whose numbers fit are pieces of a line. -/
theorem Rows.line (follow : Rows q rows e) (fits : q.toNat + (rows.map fun row => row.count.toNat).sum < 2 ^ 64) :
    Line start behind q.toNat rows e.toNat := by
  induction rows generalizing q with
  | nil =>
    obtain rfl : q = e := follow
    rfl
  | cons row rows ih =>
    obtain ⟨⟨rfl, carries⟩, later⟩ := follow
    rw [List.map_cons, List.sum_cons, ← Nat.add_assoc] at fits
    have small := row.count.isLt
    have after : (row.sequence + row.count.setWidth 64).toNat = row.behind := by
      rw [BitVec.toNat_add, BitVec.toNat_setWidth, Nat.mod_eq_of_lt (show row.count.toNat < 2 ^ 64 by omega),
        Nat.mod_eq_of_lt (by omega)]
      rfl
    have positive : 0 < row.count.toNat := Nat.pos_of_ne_zero fun zero => carries (BitVec.eq_of_toNat_eq zero)
    refine ⟨⟨rfl, Nat.lt_add_of_pos_right positive⟩, ?_⟩
    rw [← after]
    exact ih later (by rwa [after])

/-- The drop log has the numbers of the rows that say dropped. -/
theorem dropLog_spans (index : Nat) (rows : List ScheduleEntry) :
    (dropLog index rows).map DropEntry.span = (rows.filter fun row => row.dropped).map (span start behind) := by
  induction rows generalizing index with
  | nil => rfl
  | cons row rows ih =>
    have small := row.count.isLt
    have here : DropEntry.span ⟨row.sequence, row.count.setWidth 64, index⟩ = span start behind row := by
      rw [DropEntry.span, span, behind, Nat.add_sub_cancel_left, BitVec.toNat_setWidth,
        Nat.mod_eq_of_lt (show row.count.toNat < 2 ^ 64 by omega)]
      rfl
    rw [dropLog]
    cases dropped : row.dropped with
    | true => rw [if_pos rfl, List.filter_cons_of_pos dropped, List.map_cons, List.map_cons, here, ih]
    | false => rw [if_neg (by decide), List.filter_cons_of_neg (by rw [dropped]; decide), ih]

end ScheduleEntry

section
open ScheduleEntry Sent
variable {mem : Memory} {o : MainOptions} {e : Environment} {data size : Nat} {m : ReplayerMain} {built : List Sent}
  {rows : List ScheduleEntry}

/-- The packets sent are those of the rows that do not say dropped. -/
theorem Cuts.kept_rows (cuts : Cuts mem o data size m built) (ran : ReplayerMain.Ran o e rows m) :
    ((built.filter fun x => !x.dropped).map fun x => (x.first, x.next)) =
      (rows.filter fun row => !row.dropped).map fun row => (row.start, row.behind) := by
  have packet : ∀ x ∈ built.filter (fun x => !x.dropped), x.packet.bytes.take kHeaderSize =
      encodeHeader ⟨makeSession o.session, x.packet.sequence, .ofNat 16 x.count⟩ := by
    intro x member
    rw [(cuts.consecutive.packet x (List.mem_of_mem_filter member)).1, packetOf]
    exact List.take_left' (length_encodeHeader _)
  have headers := ran.headers
  rw [cuts.sent, List.map_append, List.map_singleton] at headers
  have sent := (List.append_inj' headers rfl).1
  rw [arriving, List.map_map] at sent
  have same : (built.filter fun x => !x.dropped).map (fun x => (⟨makeSession o.session, x.packet.sequence, .ofNat 16 x.count⟩ : Mold.Header)) =
      (rows.filter fun row => !row.dropped).map fun row => ⟨makeSession o.session, row.sequence, row.count⟩ := by
    refine List.map_injective_iff.mpr (fun _ _ => encodeHeader_injective) ?_
    rw [List.map_map, List.map_map]
    exact (List.map_congr_left packet).symm.trans sent
  have ends := congrArg (List.map fun h : Mold.Header => (h.sequence.toNat, h.sequence.toNat + h.messageCount.toNat)) same
  rw [List.map_map, List.map_map] at ends
  refine Eq.trans (List.map_congr_left fun x member => ?_) ends
  have below := (cuts.consecutive.packet x (List.mem_of_mem_filter member)).2.2.1
  rw [Function.comp_apply, BitVec.toNat_ofNat, Nat.mod_eq_of_lt (by omega)]
  rfl

/-- A mark below the first packet to arrive skips up to it, and then what a fresh decoder does. -/
theorem skipped_opening {q last : BitVec 64} {line : List Sent} (consecutive : Consecutive (makeSession o.session) q.toNat line last.toNat)
    {kept : List Sent} (part : kept.Sublist line) :
    skipped first next last.toNat q.toNat (kept.map some ++ [none]) =
        hole q.toNat (opening last (kept.map some ++ [none])) ++
          skipped first next last.toNat (opening last (kept.map some ++ [none])) (kept.map some ++ [none]) ∧
      q.toNat ≤ opening last (kept.map some ++ [none]) ∧
      ∀ s ∈ skipped first next last.toNat (opening last (kept.map some ++ [none])) (kept.map some ++ [none]), q.toNat < s.first := by
  have whole := consecutive.line
  cases kept with
  | nil =>
    have nothing : skipped first next last.toNat last.toNat [none] = [] := by
      rw [skipped, if_neg (Nat.lt_irrefl _)]
      rfl
    refine ⟨?_, whole.le, fun s member => ?_⟩
    · change skipped first next last.toNat q.toNat [none] = hole q.toNat last.toNat ++ skipped first next last.toNat last.toNat [none]
      rw [nothing, skipped]
      rfl
    · change s ∈ skipped first next last.toNat last.toNat [none] at member
      rw [nothing] at member
      cases member
  | cons x kept =>
    obtain ⟨low, least, _⟩ := whole.inside x (part.subset List.mem_cons_self)
    have behind : skipped first next last.toNat x.first (((x :: kept).map Option.some) ++ [none]) =
        skipped first next last.toNat x.next (kept.map Option.some ++ [none]) := by
      rw [List.map_cons, List.cons_append, skipped, if_pos (Nat.le_refl _), if_neg (Nat.lt_irrefl _), List.nil_append]
    refine ⟨?_, low, fun s member => ?_⟩
    · change _ = hole q.toNat x.first ++ skipped first next last.toNat x.first (((x :: kept).map Option.some) ++ [none])
      rw [behind, List.map_cons, List.cons_append, skipped, if_pos low]
      rfl
    · change s ∈ skipped first next last.toNat x.first (((x :: kept).map Option.some) ++ [none]) at member
      rw [behind] at member
      have grow : ∀ y, Option.some y ∈ kept.map Option.some ++ [none] → y.first < y.next := fun y there =>
        (whole.inside y (part.subset (List.mem_cons_of_mem _ (by simpa using there)))).2.1
      have high := le_skipped grow x.next s member
      omega

end

/-- What a decoder shows of the drops of a run. -/
structure Explained (m : ReplayerMain) (answers : List Heard) (d : Decoder) : Prop where
  /-- Its gaps are the ranges of the drop log. -/
  noted : (answers.flatMap Heard.noted).map Gap.span = DropEntry.found m.drops
  listed : d.gaps.map Gap.span = (DropEntry.found m.drops).take Decoder.kMaxGaps
  total : d.gapsTotal = (DropEntry.found m.drops).length
  missed : d.gapMessages.toNat = ((DropEntry.found m.drops).map Span.size).sum
  /-- Every message packed is delivered or in the drop log. -/
  delivered : d.messages.toNat + (m.drops.map fun row => row.count.toNat).sum = m.messagesPacked
  expected : d.expected.toNat = 1 + m.messagesPacked
  clean : d.eos = true ∧ d.duplicates = 0 ∧ d.malformed = 0

section
open ScheduleEntry Sent
variable {mem : Memory} {o : MainOptions} {e : Environment} {data size : Nat} {m : ReplayerMain} {built : List Sent}
  {rows : List ScheduleEntry}

/-- What arrives of a run whose sends succeed, over a network that keeps the order. -/
def inOrder (built : List Sent) : List (Option Sent) := (built.filter fun x => !x.dropped).map some ++ [none]

/-- The range in front of the first packet to arrive, and what a decoder skips behind it. -/
theorem Cuts.opens (cuts : Cuts mem o data size m built) :
    skipped first next m.packer.packetSequence.toNat 1 (inOrder built) =
        hole 1 (opening m.packer.packetSequence (inOrder built)) ++
          skipped first next m.packer.packetSequence.toNat (opening m.packer.packetSequence (inOrder built)) (inOrder built) ∧
      1 ≤ opening m.packer.packetSequence (inOrder built) ∧
      ∀ s ∈ skipped first next m.packer.packetSequence.toNat (opening m.packer.packetSequence (inOrder built)) (inOrder built),
        1 < s.first :=
  skipped_opening cuts.consecutive List.filter_sublist

/-- The rows end where the packets do. -/
theorem Cuts.total (cuts : Cuts mem o data size m built) : m.packer.packetSequence.toNat = 1 + m.messagesPacked := by
  rw [cuts.consecutive.total, cuts.packed]
  rfl

/-- What a decoder skips are the ranges of the drop log. -/
theorem Cuts.joined_drops (cuts : Cuts mem o data size m built) (ran : ReplayerMain.Ran o e rows m) :
    Span.joined (m.drops.map DropEntry.span) = skipped first next m.packer.packetSequence.toNat 1 (inOrder built) := by
  have fits : 1 + (rows.map fun row => row.count.toNat).sum < 2 ^ 64 := by
    rw [ran.packed, ← cuts.total]
    exact m.packer.packetSequence.isLt
  have line : Line start behind 1 rows m.packer.packetSequence.toNat := ran.follow.line fits
  have kept := line.skipped_kept (fun row => row.dropped) (Nat.le_refl 1)
  rw [← dropLog_spans 0 rows, ← ran.drops] at kept
  rw [inOrder, skipped_congr (cuts.kept_rows ran), kept]
  rfl

/-- What arrives was built. -/
theorem mem_of_inOrder {x : Sent} (member : some x ∈ inOrder built) : x ∈ built := by
  rw [inOrder, List.mem_append] at member
  rcases member with packet | last
  · obtain ⟨y, kept, same⟩ := List.mem_map.mp packet
    cases same
    exact List.mem_of_mem_filter kept
  · cases List.mem_singleton.mp last

theorem reduceOption_inOrder (built : List Sent) : (inOrder built).reduceOption = built.filter fun x => !x.dropped := by
  have self : ∀ xs : List Sent, (xs.map some).reduceOption = xs := fun xs => by
    rw [List.reduceOption, List.filterMap_map, Function.id_comp, List.filterMap_some]
  rw [inOrder, List.reduceOption_append, self]
  exact List.append_nil _

/-- Where every send succeeds, everything that was sent arrives, and the end of session behind it. -/
theorem Cuts.flown (cuts : Cuts mem o data size m built) (ran : ReplayerMain.Ran o e rows m) (failures : m.sender.failures = 0) :
    m.onWire = (inOrder built).map (bytesOf (encodeHeader ⟨makeSession o.session, m.packer.packetSequence, kEndOfSession⟩)) := by
  rw [ran.wired.onWire_of_failures failures, cuts.sent, inOrder, List.map_append, List.map_map]
  rfl

/-- The drop log has what a mark skips behind the first packet to arrive. -/
theorem Cuts.found (cuts : Cuts mem o data size m built) (ran : ReplayerMain.Ran o e rows m) : DropEntry.found m.drops =
    skipped first next m.packer.packetSequence.toNat (opening m.packer.packetSequence (inOrder built)) (inOrder built) := by
  obtain ⟨split, _, behind⟩ := cuts.opens
  have blind : (hole 1 (opening m.packer.packetSequence (inOrder built))).filter (fun s => decide (s.first ≠ 1)) = [] := by
    rw [hole]
    split
    · rfl
    · rfl
  have seen := List.filter_eq_self.mpr fun s member => decide_eq_true (Nat.ne_of_gt (behind s member))
  rw [DropEntry.found, cuts.joined_drops ran, split, List.filter_append]
  exact congrArg₂ (· ++ ·) blind seen

/-- What the drop log counts: the numbers in front of the first packet to arrive, and the ranges. -/
theorem Cuts.sum_drops (cuts : Cuts mem o data size m built) (ran : ReplayerMain.Ran o e rows m) :
    (m.drops.map fun row => row.count.toNat).sum =
      opening m.packer.packetSequence (inOrder built) - 1 + ((DropEntry.found m.drops).map Span.size).sum := by
  obtain ⟨split, low, _⟩ := cuts.opens
  have sum := Span.sum_joined (m.drops.map DropEntry.span)
  rw [cuts.joined_drops ran, split, ← cuts.found ran, List.map_append, List.sum_append, List.map_map] at sum
  refine sum.symm.trans (congrArg (· + _) ?_)
  rw [hole]
  split
  · rfl
  · next reached =>
    have here : ¬1 < opening m.packer.packetSequence (inOrder built) := reached
    rw [List.map_nil, List.sum_nil]
    omega

/-- The ranges of the drop log fit 64 bits. -/
theorem Cuts.found_lt (cuts : Cuts mem o data size m built) (ran : ReplayerMain.Ran o e rows m) :
    ((DropEntry.found m.drops).map Span.size).sum < 2 ^ 64 := by
  have onWire : ∀ x, some x ∈ inOrder built → x ∈ built := fun _ => mem_of_inOrder
  have grow : ∀ x, some x ∈ inOrder built → x.first < x.next := fun x member =>
    (cuts.consecutive.line.inside x (onWire x member)).2.1
  have passed := taken_add_skipped m.packer.packetSequence.toNat grow 1
  have top : raised first next m.packer.packetSequence.toNat 1 (inOrder built) ≤ m.packer.packetSequence.toNat :=
    (cuts.consecutive.line.raised_le onWire cuts.consecutive.line.le).1
  have small := m.packer.packetSequence.isLt
  rw [cuts.opens.1, ← cuts.found ran, List.map_append, List.sum_append] at passed
  omega

/-- Nothing arrives twice or late. -/
theorem Cuts.applied (cuts : Cuts mem o data size m built) :
    taken first next m.packer.packetSequence.toNat 0 (inOrder built) = (inOrder built).reduceOption := by
  rw [reduceOption_inOrder]
  exact cuts.consecutive.line.taken_kept (fun x => x.dropped) (Nat.zero_le _)

end

theorem ReplayerMain.failures_of_exitCode {m : ReplayerMain} (success : m.exitCode = 0) : m.sender.failures = 0 := by
  unfold exitCode at success
  split at success
  · cases success
  · split at success
    · next fine =>
      simp only [Bool.and_eq_true, beq_iff_eq] at fine
      exact fine.2
    · cases success

/-- **The drop log**, for every file, all options and every environment in which the replayer succeeds. The packer's
buffer, of `kHeaderSize + maxPayload` bytes without a wrap, can be allocated. -/
theorem drop_log_explained (mem : Memory) (o : MainOptions) (e : Environment) (data size : Nat) (sized : size < 2 ^ 64)
    (success : ((ReplayerMain.run o e data size).value mem).exitCode = 0) (arrivals : List Arrival)
    (carried : arrivals.map Arrival.bytes = ((ReplayerMain.run o e data size).value mem).onWire) :
    Explained ((ReplayerMain.run o e data size).value mem) (Runs.answers Decoder.step {} arrivals)
      (Runs.after Decoder.step {} arrivals) := by
  obtain ⟨same, rows, ran⟩ := ReplayerMain.run_logged mem o e data size
  have packs := Replayer.run_packs mem o.loop data size
  rw [← same] at packs
  generalize (ReplayerMain.run o e data size).value mem = m at *
  obtain ⟨built, cuts⟩ := cuts_of_packs sized packs
  have flown := carried.trans (cuts.flown ran (ReplayerMain.failures_of_exitCode success))
  have onWire : ∀ x, some x ∈ inOrder built → x ∈ built := fun _ => mem_of_inOrder
  have last : none ∈ inOrder built := List.mem_append_right _ (List.mem_singleton_self _)
  have delivers := delivers_run cuts.consecutive onWire flown
  have reached := reaches_last cuts.consecutive onWire last flown
  rw [cuts.total] at reached
  have noted := delivers.noted.trans (cuts.found ran).symm
  have logged := Decoder.logged_run {} arrivals
  have missed : (Runs.after Decoder.step {} arrivals).gapMessages.toNat = ((DropEntry.found m.drops).map Span.size).sum := by
    have here : (0#64 + (((Runs.answers Decoder.step {} arrivals).flatMap Heard.noted).map Gap.count).sum).toNat = _ :=
      (congrArg BitVec.toNat (BitVec.zero_add _)).trans (sum_spans _)
    rw [logged.missed]
    refine here.trans ?_
    rw [noted, Nat.mod_eq_of_lt (cuts.found_lt ran)]
  have low := cuts.opens.2.1
  have counts := cuts.sum_drops ran
  have accounts := delivers.accounts (List.ne_nil_of_mem last)
  have repeated := delivers.duplicates
  have applied := delivers.applied
  rw [cuts.applied] at applied
  refine ⟨noted, ?_, ?_, missed, ?_, reached, delivers.eos.mpr last, ?_, delivers.untouched.1⟩
  · rw [logged.listed, List.map_append, List.map_take, noted]
    rfl
  · rw [logged.total, ← noted, List.length_map]
    exact Nat.zero_add _
  · rw [missed] at accounts
    omega
  · omega

/-- Three messages in a packet each, of which the second is dropped. -/
theorem drop_log_explained_second : (Runs.after Decoder.step {} [
    .ofBytes (packetOf (makeSession ({} : MainOptions).session) 1#64 [[1#8]]),
    .ofBytes (packetOf (makeSession ({} : MainOptions).session) 3#64 [[3#8]]),
    .ofBytes (encodeHeader ⟨makeSession ({} : MainOptions).session, 4#64, kEndOfSession⟩)]).gaps.map Gap.span =
      [⟨2, 1⟩] :=
  (drop_log_explained (memoryOf [0#8, 1#8, 1#8, 0#8, 1#8, 2#8, 0#8, 1#8, 3#8]) { maxPayload := 3, dropEvery := 2 }
    ⟨fun k => if k = 2 then 20 else 23, fun _ => 0#64, fun _ => 0#64⟩ 0 9 (by decide) (by decide +kernel) _
    (by decide +kernel)).listed.trans (by decide +kernel)

end Nts.Apps
