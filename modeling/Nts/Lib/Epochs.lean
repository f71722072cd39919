import Nts.Lib.Runs

/-!
# Runs in epochs

Some inputs have a key. An epoch goes on until an input of another key than the last comes. A step function that starts afresh
there, and keeps what came before beside what it does (`atop`), does epoch by epoch what it does to each alone.
-/

namespace Runs
variable {σ ι ο κ : Type*} [DecidableEq κ]

/-- An input of another key than the last. -/
def Changes (key : ι → Option κ) (last : Option κ) (c : ι) : Prop := last.isSome = true ∧ (key c).isSome = true ∧ key c ≠ last

instance (key : ι → Option κ) (last : Option κ) (c : ι) : Decidable (Changes key last c) := inferInstanceAs (Decidable (_ ∧ _))

/-- The rest of an epoch, and the epochs behind it. -/
def cut (key : ι → Option κ) (last : Option κ) : List ι → List ι × List (List ι)
  | [] => ([], [])
  | c :: cs =>
    let r := cut key ((key c).or last) cs
    if Changes key last c then ([], (c :: r.1) :: r.2) else (c :: r.1, r.2)

/-- The epochs of a list. -/
def epochs (key : ι → Option κ) (cs : List ι) : List (List ι) := (cut key none cs).1 :: (cut key none cs).2

section
variable {key : ι → Option κ} {last : Option κ} {c : ι} {cs : List ι}

omit [DecidableEq κ] in
/-- An epoch takes the key of its first input. -/
theorem or_of_changes (changes : Changes key last c) (last' : Option κ) : (key c).or last' = key c := by
  obtain ⟨k, here⟩ := Option.isSome_iff_exists.mp changes.2.1
  rw [here, Option.some_or]

theorem cut_of_changes (changes : Changes key last c) :
    cut key last (c :: cs) = ([], (c :: (cut key (key c) cs).1) :: (cut key (key c) cs).2) := by
  rw [cut, if_pos changes, or_of_changes changes]

theorem cut_of_goes (goes : ¬ Changes key last c) :
    cut key last (c :: cs) = (c :: (cut key ((key c).or last) cs).1, (cut key ((key c).or last) cs).2) := by
  rw [cut, if_neg goes]

/-- An epoch keeps its key. -/
theorem or_of_goes (goes : ¬ Changes key last c) (given : last.isSome = true) : (key c).or last = last := by
  cases here : key c with
  | none => exact Option.none_or
  | some k =>
    rw [Option.some_or]
    by_contra other
    exact goes ⟨given, by rw [here, Option.isSome_some], by rwa [here]⟩

theorem goes_in_cut (given : last.isSome = true) : ∀ c ∈ (cut key last cs).1, ¬ Changes key last c := by
  induction cs with
  | nil =>
    intro c member
    cases member
  | cons c cs ih =>
    by_cases changes : Changes key last c
    · rw [cut_of_changes changes]
      intro c' member
      cases member
    · rw [cut_of_goes changes, or_of_goes changes given]
      exact List.forall_mem_cons.mpr ⟨changes, ih⟩

/-- Nothing is lost. -/
theorem flatten_cut (last : Option κ) (cs : List ι) : (cut key last cs).1 ++ (cut key last cs).2.flatten = cs := by
  induction cs generalizing last with
  | nil => rfl
  | cons c cs ih =>
    by_cases changes : Changes key last c
    · rw [cut_of_changes changes, List.flatten_cons, List.nil_append, List.cons_append, ih]
    · rw [cut_of_goes changes, List.cons_append, ih]

/-- The inputs of a list that have a key have the same. -/
def OneKey (key : ι → Option κ) (cs : List ι) : Prop :=
  ∀ c ∈ cs, ∀ c' ∈ cs, (key c).isSome = true → (key c').isSome = true → key c = key c'

omit [DecidableEq κ] in
theorem oneKey_of_goes (given : last.isSome = true) (goes : ∀ c ∈ cs, ¬ Changes key last c) : OneKey key cs := by
  have same : ∀ c ∈ cs, (key c).isSome = true → key c = last := by
    intro c member keyed
    by_contra other
    exact goes c member ⟨given, keyed, other⟩
  intro c member c' member' keyed keyed'
  rw [same c member keyed, same c' member' keyed']

/-- An epoch from its first input with a key on. -/
theorem oneKey_cons (keyed : (key c).isSome = true) (cs : List ι) : OneKey key (c :: (cut key (key c) cs).1) :=
  oneKey_of_goes keyed (List.forall_mem_cons.mpr ⟨fun itself => itself.2.2 rfl, goes_in_cut keyed⟩)

/-- Behind the first each epoch begins with a key. -/
theorem oneKey_cut (last : Option κ) (cs : List ι) : ∀ e ∈ (cut key last cs).2, OneKey key e := by
  induction cs generalizing last with
  | nil =>
    intro e member
    cases member
  | cons c cs ih =>
    by_cases changes : Changes key last c
    · rw [cut_of_changes changes]
      exact List.forall_mem_cons.mpr ⟨oneKey_cons changes.2.1 cs, ih (key c)⟩
    · rw [cut_of_goes changes]
      exact ih _

/-- The first may have inputs without a key in front of it. -/
theorem oneKey_first (cs : List ι) : OneKey key (cut key none cs).1 := by
  induction cs with
  | nil =>
    intro c member
    cases member
  | cons c cs ih =>
    have goes : ¬ Changes key none c := fun changes => Bool.false_ne_true changes.1
    rw [cut_of_goes goes, Option.or_none]
    cases here : key c with
    | none =>
      have unkeyed : (key c).isSome ≠ true := by rw [here]; exact Bool.false_ne_true
      rintro c' (_ | ⟨_, member'⟩) c'' (_ | ⟨_, member''⟩) keyed' keyed''
      · rfl
      · exact absurd keyed' unkeyed
      · exact absurd keyed'' unkeyed
      · exact ih c' member' c'' member'' keyed' keyed''
    | some k =>
      rw [← here]
      exact oneKey_cons (by rw [here, Option.isSome_some]) cs

theorem oneKey_epochs (cs : List ι) : ∀ e ∈ epochs key cs, OneKey key e :=
  List.forall_mem_cons.mpr ⟨oneKey_first cs, oneKey_cut none cs⟩

end

/-- A step function that starts afresh at each change. -/
structure Afresh (step : σ → ι → σ × ο) (key : ι → Option κ) (last : σ → Option κ) (fresh : σ) (atop : σ → σ → σ) : Prop where
  follows : ∀ s c, last (step s c).1 = (key c).or (last s)
  starts : ∀ s c, Changes key (last s) c → step s c = (atop s (step fresh c).1, (step fresh c).2)
  goes : ∀ s t c, (last t).isSome = true → ¬ Changes key (last t) c → step (atop s t) c = (atop s (step t c).1, (step t c).2)

section
variable {step : σ → ι → σ × ο} {key : ι → Option κ} {last : σ → Option κ} {fresh : σ} {atop : σ → σ → σ}

/-- The rest of an epoch is run beside what came before. -/
theorem Afresh.beside (afresh : Afresh step key last fresh atop) (s : σ) {t : σ} (given : (last t).isSome = true) {cs : List ι}
    (goes : ∀ c ∈ cs, ¬ Changes key (last t) c) :
    after step (atop s t) cs = atop s (after step t cs) ∧ answers step (atop s t) cs = answers step t cs := by
  induction cs generalizing t with
  | nil => exact ⟨rfl, rfl⟩
  | cons c cs ih =>
    obtain ⟨here, later⟩ := List.forall_mem_cons.mp goes
    have same : last (step t c).1 = last t := by rw [afresh.follows, or_of_goes here given]
    obtain ⟨state, answered⟩ := ih (t := (step t c).1) (by rw [same]; exact given) (by rw [same]; exact later)
    rw [after_cons, after_cons, answers, answers, afresh.goes s t c given here]
    exact ⟨state, by rw [answered]⟩

/-- **Epochs.** -/
theorem Afresh.run (afresh : Afresh step key last fresh atop) (s : σ) (cs : List ι) :
    after step s cs = ((cut key (last s) cs).2.map (after step fresh)).foldl atop (after step s (cut key (last s) cs).1) ∧
      answers step s cs = answers step s (cut key (last s) cs).1 ++ (cut key (last s) cs).2.flatMap (answers step fresh) := by
  induction cs generalizing s with
  | nil => exact ⟨rfl, rfl⟩
  | cons c cs ih =>
    obtain ⟨state, answered⟩ := ih (step s c).1
    rw [afresh.follows] at state answered
    by_cases changes : Changes key (last s) c
    · have keyed : last (step fresh c).1 = key c := by rw [afresh.follows, or_of_changes changes]
      have within : ∀ c' ∈ (cut key (key c) cs).1, ¬ Changes key (last (step fresh c).1) c' := by
        rw [keyed]
        exact goes_in_cut changes.2.1
      have beside := afresh.beside s (by rw [keyed]; exact changes.2.1) within
      rw [or_of_changes changes] at state answered
      have starts := afresh.starts s c changes
      rw [cut_of_changes changes]
      refine ⟨?_, ?_⟩
      · rw [after_cons, state, starts, beside.1]
        rfl
      · change (step s c).2 :: answers step (step s c).1 cs = _
        rw [answered, starts, beside.2]
        rfl
    · rw [cut_of_goes changes]
      refine ⟨state, ?_⟩
      change (step s c).2 :: answers step (step s c).1 cs = _
      rw [answered]
      rfl

/-- A counter that goes up at each change. -/
theorem Afresh.count (afresh : Afresh step key last fresh atop) {count : σ → Nat}
    (counts : ∀ s c, count (step s c).1 = count s + if Changes key (last s) c then 1 else 0) (s : σ) (cs : List ι) :
    count (after step s cs) = count s + (cut key (last s) cs).2.length := by
  induction cs generalizing s with
  | nil => rfl
  | cons c cs ih =>
    rw [after_cons, ih, counts, afresh.follows]
    by_cases changes : Changes key (last s) c
    · rw [if_pos changes, cut_of_changes changes, or_of_changes changes, List.length_cons]
      omega
    · rw [if_neg changes, cut_of_goes changes, Nat.add_zero]

end

end Runs
