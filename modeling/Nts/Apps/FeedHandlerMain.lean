import Nts.Apps.Conservation
import Nts.Book.RefSetRuns

/-!
# `main` of the feed handler (`apps/feed_handler/main.cc`)

The loop of `FeedHandler` with what the printed summary adds to it: the counts by type, the conservation check, the top of
book table, and the exit code. `feedHandler_main` reads each of them off the naive reference table. The exit code
does not ask how the framing ended.
-/

namespace Nts.Apps
open Reading Itch Book

/-- A line of the top of book table. -/
structure TopRow where
  symbol : Stock
  bid : Level
  ask : Level

/-- The variables of `main`. `counts` is a map over `char`, which is signed. -/
structure FeedHandlerMain extends FeedHandler where
  counts : Std.TreeMap (BitVec 8) Nat (compareOn BitVec.toInt) := ∅

namespace FeedHandlerMain

/-- One round of the loop. -/
def onMessage (m : FeedHandlerMain) (mv : MessageView) : Reading (FeedHandlerMain × Bool) := do
  let type ← read mv.data
  let (f, left) ← m.toFeedHandler.onMessage mv
  pure ({ toFeedHandler := f, counts := m.counts.insert type (m.counts.getD type 0 + 1) }, left)

/-- `conserved`. -/
def conserved (m : FeedHandlerMain) : Bool := m.books.restingShares == m.audit.expectedResting

/-- The body of the loop over the locates; `none` is its `continue`. -/
def topRow (books : BookSet) (l16 : BitVec 16) : Option TopRow :=
  if !books.known l16 then none
  else
    match (books.book l16).bestBid, (books.book l16).bestAsk with
    | some bid, some ask => some ⟨books.symbol l16, bid, ask⟩
    | _, _ => none

/-- The loop over the locates, with the last `left` of them to go. -/
def topRows (books : BookSet) : (left shown : Nat) → List TopRow
  | 0, _ => []
  | left + 1, shown =>
    if shown < 10 then
      match topRow books (.ofNat 16 (0xFFFF - left)) with
      | none => topRows books left shown
      | some row => row :: topRows books left (shown + 1)
    else []

/-- The table: first ten symbols with a two sided market. -/
def topOfBook (books : BookSet) : List TopRow := topRows books 0xFFFF 0

/-- The check behind the loop. -/
def checkAll (m : FeedHandlerMain) : FeedHandlerMain :=
  if !m.books.checkInvariants then { m with invariantsOk := false } else m

/-- `main`, over the contents of the file. -/
def run (data size : Nat) : Reading (FeedHandlerMain × Framer) := do
  let (m, framer, _) ← Framer.walkUntil onMessage ⟨data, size, 0⟩ {}
  pure (m.checkAll, framer)

/-- What `main` returns. -/
def exitCode (m : FeedHandlerMain) : Nat :=
  if m.invariantsOk && m.conserved && m.unknownType == 0 && m.lengthMismatch == 0 && m.unknownLocate == 0 &&
      m.audit.unknownRef == 0 && m.audit.duplicateRef == 0 && m.audit.clampedReduce == 0 then 0
  else 1

/-! ## The loop -/

/-- One round as a step. -/
def round (mem : Memory) (m : FeedHandlerMain) (mv : MessageView) : FeedHandlerMain × Bool := (m.onMessage mv).value mem

/-- The counts behind some messages. -/
def counted (mem : Memory) (counts : Std.TreeMap (BitVec 8) Nat (compareOn BitVec.toInt)) (mvs : List MessageView) :
    Std.TreeMap (BitVec 8) Nat (compareOn BitVec.toInt) :=
  mvs.foldl (fun counts mv => counts.insert (mem mv.data) (counts.getD (mem mv.data) 0 + 1)) counts

section
variable {mem : Memory}

theorem round_eq (m : FeedHandlerMain) (mv : MessageView) : m.round mem mv =
    ({ toFeedHandler := (m.toFeedHandler.round mem mv).1
       counts := m.counts.insert (mem mv.data) (m.counts.getD (mem mv.data) 0 + 1) }, (m.toFeedHandler.round mem mv).2) := by
  simp only [round, onMessage, FeedHandler.round, value_bind, value_read, value_pure]

/-- The loop is the feed handler's, and counts every message. -/
theorem rounds {m : FeedHandlerMain} (sound : m.toFeedHandler.Sound) (mvs : List MessageView) :
    Runs.afterUntil (round mem) m mvs =
      ({ toFeedHandler := Runs.after (FeedHandler.round mem) m.toFeedHandler mvs, counts := counted mem m.counts mvs }, false) := by
  induction mvs generalizing m with
  | nil => rfl
  | cons mv mvs ih =>
    obtain ⟨f, value, sound', _⟩ := sound.onMessage mem mv
    have here : m.toFeedHandler.round mem mv = (f, false) := value
    rw [Runs.afterUntil, round_eq, here, if_neg Bool.false_ne_true, ih sound', Runs.after_cons, here]
    rfl

theorem compareOn_toInt (type type' : BitVec 8) : compareOn BitVec.toInt type type' = .eq ↔ type = type' := by
  rw [compareOn, Int.compare_eq_eq, BitVec.toInt_inj]

/-- Every type is counted as often as it occurs, and no other is listed. -/
theorem getElem?_counted (counts : Std.TreeMap (BitVec 8) Nat (compareOn BitVec.toInt)) (mvs : List MessageView) (type : BitVec 8) :
    (counted mem counts mvs)[type]? =
      if mvs.countP (fun mv => mem mv.data = type) = 0 then counts[type]?
      else some (counts.getD type 0 + mvs.countP fun mv => mem mv.data = type) := by
  induction mvs generalizing counts with
  | nil => rfl
  | cons mv mvs ih =>
    rw [counted, List.foldl_cons, ← counted, ih, Std.TreeMap.getElem?_insert, Std.TreeMap.getD_insert]
    simp only [compareOn_toInt, List.countP_cons]
    by_cases own : mem mv.data = type
    · subst own
      simp only [decide_true, if_true]
      split
      · next unseen => simp [unseen]
      · simp only [Nat.add_eq_zero_iff, Nat.one_ne_zero, and_false, if_false, Option.some.injEq]
        omega
    · simp only [own, decide_false, if_false, Bool.false_eq_true, Nat.add_zero]

end

/-! ## The table -/

/-- The locates from the last but `left` on. -/
theorem topRows_eq (books : BookSet) {left : Nat} (few : left ≤ 0xFFFF) (shown : Nat) : topRows books left shown =
    ((List.range' (0x10000 - left) left).filterMap fun locate => topRow books (.ofNat 16 locate)).take (10 - shown) := by
  induction left generalizing shown with
  | zero => exact List.take_nil.symm
  | succ left ih =>
    have next : 0x10000 - left = 0x10000 - (left + 1) + 1 := by omega
    have here : 0xFFFF - left = 0x10000 - (left + 1) := by omega
    rw [topRows, List.range'_succ, here, ← next]
    by_cases room : shown < 10
    · rw [if_pos room, List.filterMap_cons]
      cases topRow books (.ofNat 16 (0x10000 - (left + 1))) with
      | none => exact ih (by omega) shown
      | some row =>
        have taken : 10 - shown = 10 - (shown + 1) + 1 := by omega
        dsimp only
        rw [taken, List.take_succ_cons, ih (by omega)]
    · rw [if_neg room, Nat.sub_eq_zero_of_le (by omega), List.take_zero]

end FeedHandlerMain

/-! ## What it reports -/

/-- The row of a locate, from the naive books. -/
def referenceRow (mem : Memory) (mvs : List MessageView) (locate : BitVec 16) :
    Option (Stock × (Nat × Nat × Nat) × (Nat × Nat × Nat)) := do
  let symbol ← listed mem mvs locate
  let bid ← ((referenceAfter mem mvs).book locate).best .buy
  let ask ← ((referenceAfter mem mvs).book locate).best .sell
  pure (symbol, bid, ask)

/-- A row in numbers. -/
def TopRow.values (row : TopRow) : Stock × (Nat × Nat × Nat) × (Nat × Nat × Nat) := (row.symbol, row.bid.values, row.ask.values)

/-- What `main` reports of the messages `mvs`. -/
structure Reports (mem : Memory) (m : FeedHandlerMain) (mvs : List MessageView) : Prop where
  messages : m.messages = mvs.length
  /-- The shares are conserved. -/
  conserved : m.conserved = true
  /-- It returns 0 exactly when the naive table takes every message and the books it leaves pass the check. -/
  exitCode : m.exitCode = 0 ↔
    Runs.Admitted (RefSet.dispatch mem) (RefSet.Takes mem) {} mvs ∧ m.books.checkInvariants = true
  /-- They do, where fewer than 2^32 messages bring no empty order. -/
  checks : mvs.length < 2 ^ 32 → (∀ mv ∈ mvs, (eventOf mem mv).Filled) → m.books.checkInvariants = true
  /-- The types listed are those that occur, each as often as it does. -/
  counts : ∀ type, m.counts[type]? =
    if mvs.countP (fun mv => mem mv.data = type) = 0 then none else some (mvs.countP fun mv => mem mv.data = type)
  symbols : m.books.size = (mvs.filterMap (directoryLocate mem)).toFinset.card
  /-- The table has the first ten locates with naive books that are two sided, their symbols and best levels. -/
  top : mvs.length < 2 ^ 32 → (FeedHandlerMain.topOfBook m.books).map TopRow.values =
    ((List.range' 1 0xFFFF).filterMap fun locate => referenceRow mem mvs (.ofNat 16 locate)).take 10

section
variable {mem : Memory} {m : FeedHandlerMain}

/-- The exit code in the counters `replay` has too. -/
theorem exitCode_eq_zero (m : FeedHandlerMain) : m.exitCode = 0 ↔
    m.invariantsOk = true ∧ m.conserved = true ∧ m.counters.clean = true ∧ m.counters.unknownType = 0 := by
  simp only [FeedHandlerMain.exitCode, FeedHandler.counters, ReplayStats.clean]
  split
  · next all =>
    simp only [Bool.and_eq_true, beq_iff_eq] at all
    simp only [true_iff, Bool.and_eq_true, beq_iff_eq]
    tauto
  · next fails =>
    simp only [Bool.and_eq_true, beq_iff_eq] at fails
    simp only [Nat.one_ne_zero, false_iff, Bool.and_eq_true, beq_iff_eq]
    tauto

/-- A row of the table is the reference's. -/
theorem topRow_values {s : BookSet} {mvs : List MessageView} {locate : BitVec 16}
    (rep : Rep (s.book locate) ((referenceAfter mem mvs).book locate)) (known : s.known locate = (listed mem mvs locate).isSome)
    (symbol : s.symbol locate = (listed mem mvs locate).getD []) :
    (FeedHandlerMain.topRow s locate).map TopRow.values = referenceRow mem mvs locate := by
  have bid := rep.best true
  have ask := rep.best false
  rw [FeedHandlerMain.topRow, referenceRow, known, symbol]
  cases listed mem mvs locate with
  | none => rfl
  | some stock =>
    change ((s.book locate).bestBid).map Level.values = _ at bid
    change ((s.book locate).bestAsk).map Level.values = _ at ask
    simp only [sideOf, if_true, Bool.false_eq_true, if_false] at bid ask
    rw [← bid, ← ask]
    cases (s.book locate).bestBid with
    | none => rfl
    | some b =>
      cases (s.book locate).bestAsk with
      | none => rfl
      | some a => rfl

theorem checkAll_eq (m : FeedHandlerMain) :
    m.checkAll = { m with invariantsOk := m.invariantsOk && m.books.checkInvariants } := by
  rw [FeedHandlerMain.checkAll]
  cases m.books.checkInvariants with
  | true => rw [Bool.not_true, if_neg Bool.false_ne_true, Bool.and_true]
  | false => rw [Bool.not_false, if_pos rfl, Bool.and_false]

/-- Behind the loop and its check. -/
theorem reports_checkAll {mvs : List MessageView} (sane : ∀ mv ∈ mvs, Sane (eventOf mem mv))
    (loop : m = ⟨Runs.after (FeedHandler.round mem) {} mvs, FeedHandlerMain.counted mem ∅ mvs⟩) :
    Reports mem m.checkAll mvs := by
  have small : ∀ mv ∈ mvs, ∀ r : RefSet, r.Small (eventOf mem mv) := fun mv member r => (sane mv member).small r
  have handled : m.toFeedHandler = Runs.after (FeedHandler.round mem) {} mvs := congrArg FeedHandlerMain.toFeedHandler loop
  obtain ⟨_, _, agree, ok⟩ := FeedHandler.sound_new.rounds mem mvs
  rw [← handled] at agree ok
  have books : m.books = Runs.after (BookSet.dispatch mem) {} mvs := (congrArg Prod.fst agree).trans (applyAll_books _ _)
  have counters : m.counters = (applyAll mem ({}, {}) mvs).2 := congrArg Prod.snd agree
  have conserved : m.conserved = true := by
    have expected := (accounted_new.rounds mvs sane).conserved.expected
    rw [← handled] at expected
    exact beq_iff_eq.mpr expected
  have initially : RefSet.Few 0 {} := fun _ => le_refl 0
  have rep : mvs.length < 2 ^ 32 → Refines Rep m.books (referenceAfter mem mvs) := fun few =>
    books ▸ (refines_new rep_new).rep_run initially mvs (by omega) small
  rw [checkAll_eq]
  refine ⟨?_, conserved, ?_, fun few filled => ?_, fun type => ?_, ?_, fun few => ?_⟩
  · have count : (applyAll mem ({}, {}) mvs).2.messages = 0 + mvs.length := messages_run ({}, {}) mvs
    rw [← counters] at count
    exact count.trans (Nat.zero_add _)
  · have taken := (refines_new tracks_new).takes_run {} mvs small
    rw [← counters] at taken
    have unbroken : m.invariantsOk = true := ok
    have fresh : ({} : ReplayStats).clean = true ∧ ({} : ReplayStats).unknownType = 0 := ⟨rfl, rfl⟩
    rw [and_iff_right fresh] at taken
    rw [← taken, exitCode_eq_zero, unbroken, Bool.true_and]
    constructor
    · rintro ⟨checks, _, clean⟩
      exact ⟨clean, checks⟩
    · rintro ⟨clean, checks⟩
      exact ⟨checks, conserved, clean⟩
  · have sound : RefSet.Sound {} := fun _ => RefBook.sound_empty
    exact (rep few).checkInvariants (sound.run initially mvs (by omega) filled)
  · rw [congrArg FeedHandlerMain.counts loop, FeedHandlerMain.getElem?_counted]
    split
    · exact Std.TreeMap.getElem?_emptyc
    · rw [Std.TreeMap.getD_emptyc, Nat.zero_add]
  · exact (books ▸ (BookSet.registered_new.run mem mvs).size).trans (by rw [Finset.empty_union])
  · rw [FeedHandlerMain.topOfBook, FeedHandlerMain.topRows_eq _ (le_refl _), List.map_take, List.map_filterMap]
    have row : ∀ locate, (FeedHandlerMain.topRow m.books locate).map TopRow.values = referenceRow mem mvs locate := by
      intro locate
      obtain ⟨known, symbol⟩ := symbol_run BookSet.sized_new mvs locate
      rw [← books] at known symbol
      exact topRow_values ((rep few).book locate) (known.trans (Bool.or_false _)) symbol
    simp only [row]

end

/-- **The feed handler's `main`** over every file whose messages give no order the reference 0 or 2^31 shares: its
exit code, its counts and its table are what the naive reference says of the messages. -/
theorem feedHandler_main (mem : Memory) (data size : Nat)
    (sane : ∀ mv ∈ Framer.handedOut mem ⟨data, size, 0⟩, Sane (eventOf mem mv)) :
    Reports mem ((FeedHandlerMain.run data size).value mem).1 (Framer.handedOut mem ⟨data, size, 0⟩) := by
  have start : (⟨data, size, 0⟩ : Framer).pos = 0 := rfl
  obtain ⟨loop, _⟩ := Framer.walkUntil_value mem FeedHandlerMain.onMessage {} start
  have whole := loop.trans (FeedHandlerMain.rounds FeedHandler.sound_new _)
  simp only [FeedHandlerMain.run, value_bind, value_pure]
  exact reports_checkAll sane (congrArg Prod.fst whole)

/-- A file of a directory message and an add. -/
theorem feedHandler_main_twoMessages : Reports (memoryOf twoMessages)
    ((FeedHandlerMain.run 0 79).value (memoryOf twoMessages)).1 (Framer.handedOut (memoryOf twoMessages) ⟨0, 79, 0⟩) :=
  feedHandler_main (memoryOf twoMessages) 0 79 (by decide +kernel)

end Nts.Apps
