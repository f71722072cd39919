import Nts.Book.Events

/-!
# What clean counters say

`clean` asks that no message was refused, and the counters do note every refusal of the
dispatch (`clean_iff`). What they do not note is why the walk ended: `replay` does not ask
`exhausted()`, and a buffer that is cut off or out of step ends the walk as its end would.
-/

namespace Nts.Book
open Reading Itch

section
variable {mem : Memory}

/-- The message was refused by nothing: its length is the table's, and its call, if it makes one, was applied. -/
def Noted (mem : Memory) (books : BookSet) (mv : MessageView) : Prop :=
  mismatched mem mv = false ∧
    ∀ locate call, eventOf mem mv = .move locate call → (books.dispatch mem mv).2 = some .applied

theorem clean_tally (stats : ReplayStats) (r : ApplyResult) :
    (tally stats r).clean = true ↔ stats.clean = true ∧ r = .applied := by
  cases r <;> simp [tally, ReplayStats.clean]

theorem messages_record (stats : ReplayStats) (mismatched : Bool) (e : Event) (result : Option ApplyResult) :
    (stats.record mismatched e result).messages = stats.messages + 1 := by
  rcases e with _ | _ | _ | _ <;> rcases result with _ | (_ | _ | _ | _) <;> cases mismatched <;> rfl

/-- Counters stay clean exactly when the message was not refused. -/
theorem clean_record (books : BookSet) (stats : ReplayStats) (mv : MessageView) :
    (stats.record (mismatched mem mv) (eventOf mem mv) (books.dispatch mem mv).2).clean = true ↔
      stats.clean = true ∧ Noted mem books mv := by
  have counted : ∀ flag : Bool, (if flag then
      { stats with messages := stats.messages + 1, lengthMismatch := stats.lengthMismatch + 1 }
      else { stats with messages := stats.messages + 1 }).clean = true ↔ stats.clean = true ∧ flag = false := by
    intro flag
    cases flag <;> simp [ReplayStats.clean]
  unfold Noted
  rw [← and_assoc, ← counted]
  generalize (books.dispatch mem mv).2 = answer
  cases event : eventOf mem mv with
  | move locate call =>
    simp only [Event.move.injEq, and_imp, forall_apply_eq_imp_iff, forall_eq']
    cases answer with
    | none =>
      simp only [ReplayStats.record]
      simp [ReplayStats.clean]
    | some r =>
      simp only [ReplayStats.record, clean_tally, Option.some.injEq]
  | unknown => simp [ReplayStats.record, ReplayStats.clean]
  | directory msg => simp [ReplayStats.record]
  | quiet => simp [ReplayStats.record]

theorem messages_run (s : BookSet × ReplayStats) (mvs : List MessageView) :
    (applyAll mem s mvs).2.messages = s.2.messages + mvs.length := by
  induction mvs generalizing s with
  | nil => rfl
  | cons mv mvs ih =>
    rw [applyAll, List.foldl_cons, ← applyAll, ih, applyMessage_value, messages_record, List.length_cons]
    omega

/-- The counters of a run are clean exactly when no message of it was refused. -/
theorem clean_run (s : BookSet × ReplayStats) (mvs : List MessageView) :
    (applyAll mem s mvs).2.clean = true ↔ s.2.clean = true ∧
      ∀ v ∈ visits (fun s mv => (applyMessage s.1 mv s.2).value mem) s mvs, Noted mem v.1.1 v.2 := by
  induction mvs generalizing s with
  | nil => simp only [applyAll, List.foldl_nil, visits, List.not_mem_nil, false_imp_iff, implies_true, and_true]
  | cons mv mvs ih =>
    rw [applyAll, List.foldl_cons, ← applyAll, ih, applyMessage_value]
    dsimp only
    rw [clean_record, visits, List.forall_mem_cons, and_assoc, applyMessage_value]

theorem map_visits {σ : Type} (step : σ → MessageView → σ) (s : σ) (mvs : List MessageView) :
    (visits step s mvs).map Prod.snd = mvs := by
  induction mvs generalizing s with
  | nil => rfl
  | cons mv mvs ih => rw [visits, List.map_cons, ih]

/-- A message that was not refused and moves a book was routed to a registered one and applied. -/
theorem Noted.applied {books : BookSet} {mv : MessageView} (noted : Noted mem books mv) {type : MessageType}
    (named : MessageType.ofByte (mem mv.data) = some type) (moves : movesBook type = true) :
    books.known (locateOf mem mv) = true ∧
      ((applyToBook (books.book (locateOf mem mv)) type mv.data).value mem).2 = some .applied := by
  rw [← callOf_isSome mem mv.data type] at moves
  obtain ⟨call, called⟩ := Option.isSome_iff_exists.mp moves
  have event : eventOf mem mv = .move (locateOf mem mv) call := by
    have other : type ≠ .stockDirectory := fun eq => by
      subst eq
      cases called
    simp only [eventOf, named, eventOfType, if_neg other, called]
  have result := noted.2 _ _ event
  simp only [BookSet.dispatch, event, BookSet.handle] at result
  split at result
  · next known =>
    refine ⟨known, ?_⟩
    rw [applyToBook_value, called]
    exact result
  · cases result

end

/-! ## The stream it was given -/

/-- The whole buffer was applied: it is framed messages and nothing else, each of them was counted and dispatched, and
those that move a book were routed to a registered one and applied. -/
def AppliedWhole (mem : Memory) (books : BookSet) (data size : Nat) : Prop :=
  ∃ ms : List (List Byte), (∀ m ∈ ms, Framed m) ∧ bytesAt mem data size = ms.flatMap block ∧
    ((replay books data size).value mem).2.messages = ms.length ∧
    (applications mem books data size).map (fun v => v.2.bytes mem) = ms ∧
    ∀ v ∈ applications mem books data size, ∀ type, MessageType.ofByte (mem v.2.data) = some type →
      movesBook type = true → v.1.1.known (locateOf mem v.2) = true ∧
        ((applyToBook (v.1.1.book (locateOf mem v.2)) type v.2.data).value mem).2 = some .applied

/-- The framing of a buffer, walked to where `next` refuses. -/
def framing (mem : Memory) (data size : Nat) : Framer := ((Framer.walk (fun _ _ => pure ()) ⟨data, size, 0⟩ ()).value mem).2

/-- **What clean counters prove.** A replay with clean counters applied the whole buffer
exactly when the framing is exhausted where the walk ends. -/
theorem clean_appliedWhole_iff (mem : Memory) (books : BookSet) (data size : Nat)
    (clean : ((replay books data size).value mem).2.clean = true) :
    AppliedWhole mem books data size ↔ (framing mem data size).exhausted = true := by
  have start : (⟨data, size, 0⟩ : Framer).pos = 0 := rfl
  obtain ⟨whole, framed, _⟩ := parse_spec (bytesAt mem data size)
  have views : Framer.handedOut mem ⟨data, size, 0⟩ = viewsFrom data (parse (bytesAt mem data size)).1 :=
    Framer.handedOut_eq rfl
  rw [framing, Framer.walk_exhausted _ _ start]
  constructor
  · rintro ⟨ms, framed', blocks, _⟩
    rw [blocks, parse_blocks framed']
  · intro nothing
    have shown := viewsFrom_bytes whole.symm
    rw [nothing, List.append_nil] at whole
    rw [replay_value] at clean
    have noted := ((clean_run _ _).mp clean).2
    refine ⟨(parse (bytesAt mem data size)).1, framed, whole.symm, ?_, ?_, ?_⟩
    · have length := congrArg List.length shown
      rw [List.length_map] at length
      rw [replay_value, messages_run, views, length]
      exact Nat.zero_add _
    · have visited := map_visits (fun s mv => (applyMessage s.1 mv s.2).value mem) (books, {})
        (Framer.handedOut mem ⟨data, size, 0⟩)
      rw [applications, ← shown, ← views, ← visited, List.map_map, visited]
      rfl
    · intro v visited type named moves
      exact (noted v visited).applied named moves

/-- A directory message, and an add for the locate it registers. -/
def twoMessages : List Byte :=
  block ([.ofNat 8 'R'.toNat, 0, 1] ++ List.replicate 36 0#8) ++
    block ([.ofNat 8 'A'.toNat, 0, 1] ++ List.replicate 15 0#8 ++ [7, .ofNat 8 'B'.toNat, 0, 0, 0, 5] ++ List.replicate 12 0#8)

theorem clean_appliedWhole_twoMessages : AppliedWhole (memoryOf twoMessages) {} 0 79 :=
  (clean_appliedWhole_iff (memoryOf twoMessages) {} 0 79 (by decide +kernel)).mpr (by decide +kernel)

/-- An add message that is cut off behind its type leaves the counters clean. -/
theorem truncated_stream_clean : ¬ ∀ (mem : Memory) (data size : Nat),
    ((replay {} data size).value mem).2.clean = true → AppliedWhole mem {} data size := by
  intro all
  obtain ⟨ms, _, blocks, counted, _⟩ := all (memoryOf [0, 36, .ofNat 8 'A'.toNat]) 0 3 (by decide +kernel)
  have zero : ((replay {} 0 3).value (memoryOf [0, 36, .ofNat 8 'A'.toNat])).2.messages = 0 := by decide +kernel
  have empty : ms = [] := List.length_eq_zero_iff.mp (counted.symm.trans zero)
  rw [empty] at blocks
  cases congrArg List.length blocks

end Nts.Book
