import Nts.Apps.FeedHandler
import Nts.Book.Clean
import Nts.Book.Locates
import Nts.Book.FastCheck

/-!
# The feed handler and `replay`

The dispatch exists twice. `onMessage_value` splits the feed handler's as `applyMessage_value` splits the
other, so the two differ in the audit and in the early exit only, and the fast check behind
the exit never fails.
-/

namespace Nts.Apps
open Reading Itch Book

/-- What the audit notes of a call that a message of a type makes on a book. -/
def Audit.note (a : Audit) (type : MessageType) (b : OrderBook) (call : OrderBook.Call) : Audit :=
  let r := (b.step call).2
  match call with
  | .add _ _ shares _ =>
    if r = .applied then { a.tally r with sharesAdded := (a.tally r).sharesAdded + shares.setWidth 64 } else a.tally r
  | .reduce ref _ =>
    let gone := (b.sharesOf ref - (b.step call).1.sharesOf ref).setWidth 64
    if type = .orderCancel then { a.tally r with sharesCancelled := (a.tally r).sharesCancelled + gone }
    else { a.tally r with sharesExecuted := (a.tally r).sharesExecuted + gone }
  | .remove ref => { a with sharesDeleted := a.sharesDeleted + (b.sharesOf ref).setWidth 64 }.tally r
  | .replace originalRef _ shares _ =>
    if r = .applied then
      { a.tally r with
        sharesDeleted := (a.tally r).sharesDeleted + (b.sharesOf originalRef).setWidth 64
        sharesAdded := (a.tally r).sharesAdded + shares.setWidth 64 }
    else a.tally r

/-- The results an audit has counted. -/
def Audit.results (a : Audit) : Nat × Nat × Nat × Nat := (a.applied, a.unknownRef, a.duplicateRef, a.clampedReduce)

/-- Whatever shares it notes, the audit counts the result of the call. -/
theorem Audit.results_note (a : Audit) (type : MessageType) (b : OrderBook) (call : OrderBook.Call) :
    (a.note type b call).results = (a.tally (b.step call).2).results := by
  unfold Audit.note
  cases call with
  | add ref side shares price =>
    dsimp only
    split <;> rfl
  | reduce ref shares =>
    dsimp only
    split <;> rfl
  | remove ref =>
    dsimp only
    cases (b.step (.remove ref)).2 <;> rfl
  | replace originalRef newRef shares price =>
    dsimp only
    split <;> rfl

namespace FeedHandler

/-- The counters `replay` has too. -/
def counters (f : FeedHandler) : ReplayStats where
  messages := f.messages
  unknownType := f.unknownType
  lengthMismatch := f.lengthMismatch
  unknownLocate := f.unknownLocate
  applied := f.audit.applied
  unknownRef := f.audit.unknownRef
  duplicateRef := f.audit.duplicateRef
  clampedReduce := f.audit.clampedReduce

/-- The audit behind an event of a type's message. -/
def audited (f : FeedHandler) (type : MessageType) : Event → Audit
  | .move locate call => if f.books.known locate then f.audit.note type (f.books.book locate) call else f.audit
  | _ => f.audit

variable {mem : Memory} {f : FeedHandler}

/-- The `switch` makes the call of the message, if it has one, on its book. -/
theorem orderMessage_value (f : FeedHandler) (type : MessageType) (locate : BitVec 16) (p : Nat) :
    (f.orderMessage type locate p).value mem =
      match callOf mem p type with
      | none => f
      | some call =>
        if f.books.known locate then
          { f with
            books := f.books.setBook locate ((f.books.book locate).step call).1
            audit := f.audit.note type (f.books.book locate) call }
        else { f with unknownLocate := f.unknownLocate + 1 } := by
  cases known : f.books.known locate with
  | false =>
    cases type <;> simp only [orderMessage, value_bind, value_pure, known, Bool.not_false, if_true] <;> rfl
  | true =>
    cases type <;> simp only [orderMessage, value_bind, value_pure, known, Bool.not_true, Bool.false_eq_true, if_false] <;> rfl

/-- The audit counts results as `replay` does. -/
theorem counters_note (f : FeedHandler) (books : BookSet) (type : MessageType) (b : OrderBook) (call : OrderBook.Call) :
    counters { f with books := books, audit := f.audit.note type b call } = tally f.counters (b.step call).2 := by
  have results := f.audit.results_note type b call
  simp only [Audit.results, Prod.mk.injEq] at results
  obtain ⟨applied, unknownRef, duplicateRef, clampedReduce⟩ := results
  simp only [counters, applied, unknownRef, duplicateRef, clampedReduce]
  cases (b.step call).2 <;> rfl

/-- What the loop keeps: every book passes the fast check. -/
structure Sound (f : FeedHandler) : Prop where
  sized : f.books.Sized
  counted : ∀ locate, (f.books.book locate).Counted

theorem sound_new : ({} : FeedHandler).Sound := ⟨BookSet.sized_new, fun _ => OrderBook.counted_new⟩

end FeedHandler

theorem counted_handle {s : BookSet} (sized : s.Sized) (counted : ∀ locate, (s.book locate).Counted) (e : Event)
    (locate : BitVec 16) : ((s.handle e).1.book locate).Counted := by
  cases e with
  | directory msg =>
    simp only [BookSet.handle, BookSet.book_onStockDirectory sized]
    exact counted locate
  | move locate' call =>
    simp only [BookSet.handle]
    split
    · next known =>
      rw [BookSet.book_setBook sized known]
      split
      · exact (counted locate').step call
      · exact counted locate
    · exact counted locate
  | unknown => exact counted locate
  | quiet => exact counted locate

namespace FeedHandler
variable {mem : Memory} {f : FeedHandler}

theorem checkTouched_counted (counted : ∀ locate, (f.books.book locate).Counted) (locate : BitVec 16) :
    f.checkTouched locate = (f, false) := by
  rw [checkTouched, (counted locate).checkInvariantsFast, Bool.not_true, Bool.and_false, if_neg (by decide)]

/-- The length is counted first; nothing else changes. -/
theorem noteLength (f : FeedHandler) (type : MessageType) (mv : MessageView) : ∃ g : FeedHandler,
    g = (if type.expectedLength ≠ mv.size then
        { f with messages := f.messages + 1, lengthMismatch := f.lengthMismatch + 1 }
      else { f with messages := f.messages + 1 }) ∧
    g.books = f.books ∧ g.audit = f.audit ∧ g.invariantsOk = f.invariantsOk ∧
    g.counters = f.counters.record (type.expectedLength != mv.size) .quiet none := by
  refine ⟨_, rfl, ?_⟩
  by_cases same : type.expectedLength = mv.size
  · simp [same, counters, ReplayStats.record]
  · simp [same, counters, ReplayStats.record]

variable (mem) in
/-- **One round.** The books and the counters go as in `applyMessage`, and the loop is not left. -/
theorem Sound.onMessage (sound : f.Sound) (mv : MessageView) : ∃ f' : FeedHandler,
    (f.onMessage mv).value mem = (f', false) ∧ f'.Sound ∧ f'.books = (f.books.dispatch mem mv).1 ∧
      f'.counters = f.counters.record (mismatched mem mv) (eventOf mem mv) (f.books.dispatch mem mv).2 ∧
      f'.invariantsOk = f.invariantsOk ∧
      (∀ type, MessageType.ofByte (mem mv.data) = some type → f'.audit = f.audited type (eventOf mem mv)) ∧
      (MessageType.ofByte (mem mv.data) = none → f'.audit = f.audit) := by
  obtain ⟨sized, counted⟩ := sound
  have sized' := BookSet.sized_handle sized (eventOf mem mv)
  have counted' := counted_handle sized counted (eventOf mem mv)
  simp only [FeedHandler.onMessage, value_bind, value_read, BookSet.dispatch]
  unfold eventOf mismatched at *
  cases named : MessageType.ofByte (mem mv.data) with
  | none => exact ⟨_, rfl, ⟨sized, counted⟩, rfl, rfl, rfl, fun _ eq => (by cases eq), fun _ => rfl⟩
  | some type =>
    simp only [named] at sized' counted' ⊢
    obtain ⟨g, same, books, audit, ok, noted⟩ := noteLength f type mv
    rw [← same]
    unfold eventOfType at *
    by_cases directory : type = .stockDirectory
    · simp only [directory, if_true, value_bind, value_pure] at sized' counted' noted ⊢
      refine ⟨_, rfl, ⟨books ▸ sized', books ▸ counted'⟩, ?_, ?_, ok, fun _ _ => audit, fun eq => (by cases eq)⟩
      · simp only [books, BookSet.handle]
      · exact noted
    · simp only [directory, if_false, value_bind, value_pure, header_locate, orderMessage_value] at sized' counted' ⊢
      cases called : callOf mem mv.data type with
      | none =>
        simp only [called] at sized' counted' ⊢
        rw [checkTouched_counted (books ▸ counted)]
        exact ⟨g, rfl, ⟨books ▸ sized, books ▸ counted⟩, books, noted, ok, fun _ _ => audit, fun eq => (by cases eq)⟩
      | some call =>
        simp only [called, BookSet.handle] at sized' counted' ⊢
        rw [← books] at sized' counted' ⊢
        by_cases known : g.books.known (locateOf mem mv) = true
        · simp only [known, if_true] at sized' counted' ⊢
          rw [checkTouched_counted counted']
          refine ⟨_, rfl, ⟨sized', counted'⟩, rfl, ?_, ok, fun type' eq => ?_, fun eq => (by cases eq)⟩
          · rw [counters_note, noted]
            rfl
          · obtain rfl : type = type' := Option.some.inj eq
            simp only [audited, ← books, known, if_true, audit]
        · simp only [known, if_false, Bool.false_eq_true] at sized' counted' ⊢
          rw [checkTouched_counted (f := { g with unknownLocate := g.unknownLocate + 1 }) counted']
          refine ⟨_, rfl, ⟨sized', counted'⟩, rfl, ?_, ok, fun type' eq => ?_, fun eq => (by cases eq)⟩
          · exact congrArg (fun stats => { stats with unknownLocate := stats.unknownLocate + 1 }) noted
          · simp only [audited, ← books, known, if_false, Bool.false_eq_true, audit]

/-- One round as a step. -/
def round (mem : Memory) (f : FeedHandler) (mv : MessageView) : FeedHandler × Bool := (f.onMessage mv).value mem

variable (mem) in
/-- Round for round the loop does what `apply_message` does, and is never left. -/
theorem Sound.rounds (sound : f.Sound) (mvs : List MessageView) :
    (∀ left ∈ Runs.answers (round mem) f mvs, left = false) ∧ (Runs.after (round mem) f mvs).Sound ∧
      ((Runs.after (round mem) f mvs).books, (Runs.after (round mem) f mvs).counters) =
        applyAll mem (f.books, f.counters) mvs ∧
      (Runs.after (round mem) f mvs).invariantsOk = f.invariantsOk := by
  induction mvs generalizing f with
  | nil => exact ⟨fun _ member => (List.not_mem_nil member).elim, sound, rfl, rfl⟩
  | cons mv mvs ih =>
    obtain ⟨f', value, sound', books, counters, ok, _⟩ := sound.onMessage mem mv
    obtain ⟨stays, sound'', agree, ok'⟩ := ih sound'
    have here : round mem f mv = (f', false) := value
    have step : applyAll mem (f.books, f.counters) (mv :: mvs) = applyAll mem (f'.books, f'.counters) mvs := by
      rw [applyAll, List.foldl_cons, ← applyAll, applyMessage_value, books, counters]
    rw [Runs.answers, Runs.after_cons, here, List.forall_mem_cons, step]
    exact ⟨⟨rfl, stays⟩, sound'', agree, ok'.trans ok⟩

variable (mem) in
/-- The loop over a list of messages, `break` included, visits them all. -/
theorem Sound.afterUntil (sound : f.Sound) (mvs : List MessageView) :
    Runs.afterUntil (round mem) f mvs = (Runs.after (round mem) f mvs, false) :=
  Runs.afterUntil_of_answers (sound.rounds mem mvs).1

end FeedHandler

/-- Over a buffer the feed handler ends with the books and counters of `replay`, in front of the same byte, and
without the early exit of its loop. -/
structure AgreesWithReplay (mem : Memory) (data size : Nat) : Prop where
  books : ((FeedHandler.run data size).value mem).1.books = ((replay {} data size).value mem).1
  counters : ((FeedHandler.run data size).value mem).1.counters = ((replay {} data size).value mem).2
  framer : ((FeedHandler.run data size).value mem).2.1 = framing mem data size
  stays : ((FeedHandler.run data size).value mem).2.2 = false

/-- **The two dispatches agree**, over every buffer. -/
theorem feedHandler_agrees_with_replay (mem : Memory) (data size : Nat) : AgreesWithReplay mem data size := by
  have start : (⟨data, size, 0⟩ : Framer).pos = 0 := rfl
  have sound := FeedHandler.sound_new
  obtain ⟨_, _, agree, _⟩ := sound.rounds mem (Framer.handedOut mem ⟨data, size, 0⟩)
  obtain ⟨loop, position⟩ := Framer.walkUntil_value mem FeedHandler.onMessage {} start
  have whole := loop.trans (sound.afterUntil mem _)
  obtain ⟨final, stays⟩ := Prod.mk.injEq .. ▸ whole
  obtain ⟨books, counters⟩ := Prod.mk.injEq .. ▸ agree
  have checked : ∀ f : FeedHandler, (if (!f.books.checkInvariants) = true then { f with invariantsOk := false } else f).books =
      f.books ∧ (if (!f.books.checkInvariants) = true then { f with invariantsOk := false } else f).counters = f.counters := by
    intro f
    split <;> exact ⟨rfl, rfl⟩
  refine ⟨?_, ?_, ?_, ?_⟩
  · rw [replay_value]
    simp only [FeedHandler.run, value_bind, value_pure, (checked _).1, final]
    exact books
  · rw [replay_value]
    simp only [FeedHandler.run, value_bind, value_pure, (checked _).2, final]
    exact counters
  · rw [framing, Framer.walk_value _ _ start]
    simp only [FeedHandler.run, value_bind, value_pure]
    exact position stays
  · simp only [FeedHandler.run, value_bind, value_pure]
    exact stays

end Nts.Apps
