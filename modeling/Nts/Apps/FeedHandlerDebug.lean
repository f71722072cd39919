import Nts.Apps.FeedHandlerMain
import Nts.Book.WireQuantities
import Nts.Lib.Halting

/-!
# The feed handler without `NDEBUG` (`apps/feed_handler/main.cc`)

A debug build has the assertion of `OrderIndex::insert`, and sweeps all books every 250000 messages. It ends as the other build
does unless one of the two fails, and neither does for messages that respect the assertion and bring
no empty order.
-/

namespace Nts.Apps
open Reading Itch Book Runs

def kInvariantInterval : Nat := 250000

/-- How the loop of a debug build is left before its end. -/
inductive DebugEnd where
  /-- By the assertion. -/
  | aborted
  /-- By the `break` behind a check. -/
  | broke (m : FeedHandlerMain)

/-- The quantity that a message takes to `OrderIndex::insert`, if any, has bit 31 clear. -/
def asserts (mem : Memory) (books : BookSet) (mv : MessageView) : Bool :=
  match eventOf mem mv with
  | .move locate call =>
    !books.known locate || ((books.book locate).inserted call).all fun shares => shares &&& kSideBit == 0#32
  | .directory _ | .unknown | .quiet => true

/-- The round of a message gets to the sweep: the rounds of unknown types and directory messages leave it out. -/
def swept (mem : Memory) (mv : MessageView) : Bool :=
  match MessageType.ofByte (mem mv.data) with
  | none => false
  | some type => type ≠ .stockDirectory

namespace FeedHandlerMain

/-- One round of the loop of a debug build. -/
def debugRound (mem : Memory) (m : FeedHandlerMain) (mv : MessageView) : Except DebugEnd FeedHandlerMain :=
  if !asserts mem m.books mv then .error .aborted
  else
    let (m, left) := m.round mem mv
    if left then .error (.broke m)
    else if swept mem mv && m.messages % kInvariantInterval == 0 && !m.books.checkInvariants then
      .error (.broke { m with invariantsOk := false })
    else .ok m

/-- The loop of a debug build, over the messages of a file. -/
def debugLoop (mem : Memory) (mvs : List MessageView) : Except DebugEnd FeedHandlerMain := mvs.foldlM (debugRound mem) {}

section
variable {mem : Memory}

theorem follows_debugRound (mem : Memory) : Follows (round mem) (debugRound mem) := by
  intro m mv m' ok
  unfold debugRound at ok
  split at ok
  · cases ok
  · dsimp only at ok
    split at ok
    · cases ok
    · split at ok
      · cases ok
      · cases ok
        rfl

/-- A run of rounds, in the parts it is made of. -/
theorem after_round (mem : Memory) (m : FeedHandlerMain) (mvs : List MessageView) : after (round mem) m mvs =
    { toFeedHandler := after (FeedHandler.round mem) m.toFeedHandler mvs, counts := counted mem m.counts mvs } := by
  induction mvs generalizing m with
  | nil => rfl
  | cons mv mvs ih =>
    rw [after_cons, ih, round_eq]
    rfl

/-- The books and the number of messages behind some messages, and that no round leaves the loop. -/
theorem after_new (mem : Memory) (mvs : List MessageView) : (after (round mem) {} mvs).toFeedHandler.Sound ∧
    (after (round mem) {} mvs).books = booksAfter mem mvs ∧ (after (round mem) {} mvs).messages = mvs.length := by
  obtain ⟨_, sound, agree, _⟩ := FeedHandler.sound_new.rounds mem mvs
  rw [after_round]
  have counters : (after (FeedHandler.round mem) {} mvs).counters = (applyAll mem ({}, {}) mvs).2 := congrArg Prod.snd agree
  have messages : (applyAll mem ({}, {}) mvs).2.messages = 0 + mvs.length := messages_run ({}, {}) mvs
  rw [← counters, Nat.zero_add] at messages
  exact ⟨sound, congrArg Prod.fst agree, messages⟩

end

end FeedHandlerMain

/-- In a debug build nothing fails in the round of message `i`. -/
structure Passes (mem : Memory) (mvs : List MessageView) (i : Nat) (mv : MessageView) : Prop where
  asserts : asserts mem (booksAfter mem (mvs.take i)) mv = true
  sweep : swept mem mv = true → kInvariantInterval ∣ i + 1 → (booksAfter mem (mvs.take (i + 1))).checkInvariants = true

section
open FeedHandlerMain
variable {mem : Memory} {mvs : List MessageView} {i : Nat} {mv : MessageView}

/-- The round of message `i`. -/
theorem debugRound_eq (found : mvs[i]? = some mv) : debugRound mem (after (round mem) {} (mvs.take i)) mv =
    if asserts mem (booksAfter mem (mvs.take i)) mv = false then .error .aborted
    else if swept mem mv = true ∧ kInvariantInterval ∣ i + 1 ∧ (booksAfter mem (mvs.take (i + 1))).checkInvariants = false then
      .error (.broke { after (round mem) {} (mvs.take (i + 1)) with invariantsOk := false })
    else .ok (after (round mem) {} (mvs.take (i + 1))) := by
  obtain ⟨inside, here⟩ := List.getElem?_eq_some_iff.mp found
  obtain ⟨sound, books, _⟩ := after_new mem (mvs.take i)
  obtain ⟨_, books', messages'⟩ := after_new mem (mvs.take (i + 1))
  rw [List.length_take, Nat.min_eq_left inside] at messages'
  have step : round mem (after (round mem) {} (mvs.take i)) mv = (after (round mem) {} (mvs.take (i + 1)), false) := by
    obtain ⟨f, value, _⟩ := sound.onMessage mem mv
    have stays : (after (round mem) {} (mvs.take i)).toFeedHandler.round mem mv = (f, false) := value
    rw [List.take_succ_eq_append_getElem inside, here, after_append, after_cons, after_nil, round_eq, stays]
  rw [debugRound, step, books]
  cases asserts mem (booksAfter mem (mvs.take i)) mv with
  | false => rfl
  | true =>
    rw [Bool.not_true, if_neg Bool.false_ne_true, if_neg (by decide)]
    dsimp only
    rw [if_neg Bool.false_ne_true, messages', books']
    simp only [Bool.and_eq_true, beq_iff_eq, Nat.dvd_iff_mod_eq_zero, Bool.not_eq_true', and_assoc]

/-- It goes on exactly when nothing fails. -/
theorem goes_iff (found : mvs[i]? = some mv) : Goes (debugRound mem) (after (round mem) {} (mvs.take i)) mv ↔ Passes mem mvs i mv := by
  rw [Goes, debugRound_eq found]
  constructor
  · rintro ⟨m, ok⟩
    split at ok
    · cases ok
    · next holds =>
      split at ok
      · cases ok
      · next passes =>
        refine ⟨(Bool.not_eq_false _).mp holds, fun sweeps divides => ?_⟩
        exact (Bool.not_eq_false _).mp fun fails => passes ⟨sweeps, divides, fails⟩
  · rintro ⟨holds, passes⟩
    rw [holds, if_neg (by decide), if_neg]
    · exact ⟨_, rfl⟩
    · rintro ⟨sweeps, divides, fails⟩
      rw [passes sweeps divides] at fails
      cases fails

end

/-- A quantity below 2^31 has bit 31 clear. -/
theorem asserts_of_sane {mem : Memory} {mv : MessageView} (sane : Sane (eventOf mem mv)) (books : BookSet) :
    asserts mem books mv = true := by
  rw [asserts]
  cases event : eventOf mem mv with
  | move locate call =>
    rw [event] at sane
    have fits := sane.1
    have clear : ((books.book locate).inserted call).all (fun shares => shares &&& kSideBit == 0#32) = true := by
      cases call with
      | add ref side shares price => exact beq_iff_eq.mpr ((and_kSideBit shares).mpr fits)
      | replace originalRef newRef shares price =>
        rw [OrderBook.inserted]
        split
        · exact beq_iff_eq.mpr ((and_kSideBit shares).mpr fits)
        · rfl
      | reduce ref shares => rfl
      | remove ref => rfl
    dsimp only
    rw [clear, Bool.or_true]
  | directory msg => rfl
  | unknown => rfl
  | quiet => rfl

/-- A debug build against the other, over some messages. -/
structure DebugBuild (mem : Memory) (mvs : List MessageView) : Prop where
  /-- It goes through, and ends as the other build does, exactly when nothing fails on the way. -/
  agrees : ∀ m, FeedHandlerMain.debugLoop mem mvs = .ok m ↔
    (∀ i mv, mvs[i]? = some mv → Passes mem mvs i mv) ∧ Runs.afterUntil (FeedHandlerMain.round mem) {} mvs = (m, false)
  /-- Otherwise the first failure ends it. -/
  ends : ∀ e, FeedHandlerMain.debugLoop mem mvs = .error e ↔ ∃ i mv, mvs[i]? = some mv ∧
    (∀ j < i, ∀ mv', mvs[j]? = some mv' → Passes mem mvs j mv') ∧
      (asserts mem (booksAfter mem (mvs.take i)) mv = false ∧ e = .aborted ∨
        asserts mem (booksAfter mem (mvs.take i)) mv = true ∧ swept mem mv = true ∧ kInvariantInterval ∣ i + 1 ∧
          (booksAfter mem (mvs.take (i + 1))).checkInvariants = false ∧
            e = .broke { (Runs.afterUntil (FeedHandlerMain.round mem) {} (mvs.take (i + 1))).1 with invariantsOk := false })
  /-- Nothing fails where quantities are below 2^31, none is 0, and 32 bits count the messages. -/
  passes : mvs.length < 2 ^ 32 → (∀ mv ∈ mvs, Sane (eventOf mem mv) ∧ (eventOf mem mv).Filled) →
    ∀ i mv, mvs[i]? = some mv → Passes mem mvs i mv

open FeedHandlerMain in
/-- **The debug build**, over every file. -/
theorem debug_build (mem : Memory) (data size : Nat) : DebugBuild mem (Framer.handedOut mem ⟨data, size, 0⟩) := by
  generalize Framer.handedOut mem ⟨data, size, 0⟩ = mvs
  have whole : ∀ mvs, Runs.afterUntil (round mem) {} mvs = (after (round mem) {} mvs, false) := fun mvs => by
    rw [rounds FeedHandler.sound_new, after_round]
  have follows := follows_debugRound mem
  refine ⟨fun m => ?_, fun e => ?_, fun few fine i mv found => ?_⟩
  · rw [debugLoop, foldlM_ok_iff follows, whole]
    refine and_congr (forall₂_congr fun i mv => ?_) ?_
    · exact forall_congr' fun found => goes_iff found
    · rw [Prod.mk.injEq, and_iff_left rfl, eq_comm]
  · rw [debugLoop, foldlM_error_iff follows]
    refine exists_congr fun i => exists_congr fun mv => and_congr_right fun found => ?_
    rw [debugRound_eq found, whole, and_comm]
    refine and_congr (forall₄_congr fun j _ mv' found' => goes_iff found') ?_
    cases asserts mem (booksAfter mem (mvs.take i)) mv with
    | false =>
      rw [if_pos rfl, Except.error.injEq]
      exact ⟨fun same => .inl ⟨rfl, same.symm⟩, fun either => either.elim (fun here => here.2.symm) fun there => by cases there.1⟩
    | true =>
      rw [if_neg (by decide)]
      split
      · next fails =>
        rw [Except.error.injEq]
        constructor
        · exact fun same => .inr ⟨rfl, fails.1, fails.2.1, fails.2.2, same.symm⟩
        · exact fun either => either.elim (fun here => by cases here.1) fun there => there.2.2.2.2.symm
      · next passes =>
        refine iff_of_false (fun same => by cases same) fun either => ?_
        rcases either with here | ⟨_, sweeps, divides, fails, _⟩
        · cases here.1
        · exact passes ⟨sweeps, divides, fails⟩
  · refine ⟨asserts_of_sane (fine mv (List.mem_of_getElem? found)).1 _, fun _ _ => ?_⟩
    have fewer : (mvs.take (i + 1)).length ≤ mvs.length := List.length_take_le' _ _
    have part : ∀ mv ∈ mvs.take (i + 1), Sane (eventOf mem mv) ∧ (eventOf mem mv).Filled := fun mv member =>
      fine mv (List.mem_of_mem_take member)
    have initially : RefSet.Few 0 {} := fun _ => le_refl 0
    have sound : RefSet.Sound {} := fun _ => RefBook.sound_empty
    have refines := (refines_new rep_new).rep_run initially (mvs.take (i + 1)) (by omega) fun mv member r => (part mv member).1.small r
    rw [booksAfter, applyAll_books]
    exact refines.checkInvariants (sound.run initially (mvs.take (i + 1)) (by omega) fun mv member => (part mv member).2)

end Nts.Apps
