import Mathlib

/-!
# Runs of deterministic components

A component is a step function: one call takes the state to the next state and
gives an answer. `after` and `answers` run a list of calls, `Admitted` says that
each call is allowed in the state it is made in. `invariant` and `simulation`
are the two inductions every run argument goes through; a client proves only
what one step does.
-/

namespace Runs

variable {σ τ ι ο : Type*}

/-- The state after the calls `cs`. -/
def after (step : σ → ι → σ × ο) : σ → List ι → σ
  | s, [] => s
  | s, c :: cs => after step (step s c).1 cs

/-- The answers to the calls `cs`, in order. -/
def answers (step : σ → ι → σ × ο) : σ → List ι → List ο
  | _, [] => []
  | s, c :: cs => (step s c).2 :: answers step (step s c).1 cs

/-- A loop over `cs` that ends early behind the first call that is answered `true`: the state behind it, and
whether it ended early. -/
def afterUntil (step : σ → ι → σ × Bool) : σ → List ι → σ × Bool
  | s, [] => (s, false)
  | s, c :: cs => if (step s c).2 then ((step s c).1, true) else afterUntil step (step s c).1 cs

/-- Every call of `cs` is allowed by `ok` in the state it is made in. -/
def Admitted (step : σ → ι → σ × ο) (ok : σ → ι → Prop) : σ → List ι → Prop
  | _, [] => True
  | s, c :: cs => ok s c ∧ Admitted step ok (step s c).1 cs

@[simp] theorem after_nil (step : σ → ι → σ × ο) (s : σ) : after step s [] = s := rfl

@[simp] theorem after_cons (step : σ → ι → σ × ο) (s : σ) (c : ι) (cs : List ι) :
    after step s (c :: cs) = after step (step s c).1 cs := rfl

theorem after_append (step : σ → ι → σ × ο) (s : σ) (cs ds : List ι) :
    after step s (cs ++ ds) = after step (after step s cs) ds := by
  induction cs generalizing s with
  | nil => rfl
  | cons c cs ih => exact ih _

/-- A loop that no call ends runs over all calls. -/
theorem afterUntil_of_answers {step : σ → ι → σ × Bool} {s : σ} {cs : List ι} (never : ∀ left ∈ answers step s cs, left = false) :
    afterUntil step s cs = (after step s cs, false) := by
  induction cs generalizing s with
  | nil => rfl
  | cons c cs ih =>
    rw [answers, List.forall_mem_cons] at never
    rw [afterUntil, never.1, if_neg (by decide), ih never.2, after_cons]

/-- A rule that allows every call admits every run. -/
theorem admitted_of_forall {step : σ → ι → σ × ο} {ok : σ → ι → Prop} (all : ∀ s c, ok s c) {s : σ} {cs : List ι} :
    Admitted step ok s cs := by
  induction cs generalizing s with
  | nil => trivial
  | cons c cs ih => exact ⟨all s c, ih⟩

instance instDecidableAdmitted (step : σ → ι → σ × ο) (ok : σ → ι → Prop) [∀ s c, Decidable (ok s c)] :
    ∀ s cs, Decidable (Admitted step ok s cs)
  | _, [] => isTrue trivial
  | s, c :: cs =>
    have := instDecidableAdmitted step ok (step s c).1 cs
    inferInstanceAs (Decidable (ok s c ∧ Admitted step ok (step s c).1 cs))

/-- **Invariants.** What holds at the start and across every admitted step holds
after every admitted run. -/
theorem invariant {step : σ → ι → σ × ο} {ok : σ → ι → Prop} (Inv : σ → Prop)
    (preserved : ∀ s c, Inv s → ok s c → Inv (step s c).1) {s : σ} {cs : List ι}
    (start : Inv s) (run : Admitted step ok s cs) : Inv (after step s cs) := by
  induction cs generalizing s with
  | nil => exact start
  | cons c cs ih => exact ih (preserved s c start run.1) run.2

/-- Two rules that allow the same calls where an invariant holds admit the same runs. -/
theorem admitted_congr {step : σ → ι → σ × ο} {ok ok' : σ → ι → Prop} (Inv : σ → Prop) {cs : List ι}
    (same : ∀ s, ∀ c ∈ cs, Inv s → (ok s c ↔ ok' s c))
    (preserved : ∀ s, ∀ c ∈ cs, Inv s → ok s c → Inv (step s c).1) {s : σ} (start : Inv s) :
    Admitted step ok s cs ↔ Admitted step ok' s cs := by
  induction cs generalizing s with
  | nil => exact Iff.rfl
  | cons c cs ih =>
    rw [Admitted, Admitted, ← same s c List.mem_cons_self start]
    refine and_congr_right fun allowed => ih ?_ ?_ (preserved s c List.mem_cons_self start allowed)
    · exact fun s c member => same s c (List.mem_cons_of_mem _ member)
    · exact fun s c member => preserved s c (List.mem_cons_of_mem _ member)

/-- **Simulation.** When related states stay related across every step the
second component admits, and answer alike, then so do whole runs. -/
theorem simulation {step : σ → ι → σ × ο} {step' : τ → ι → τ × ο} {ok : τ → ι → Prop} {R : σ → τ → Prop}
    (matched : ∀ s t c, R s t → ok t c → R (step s c).1 (step' t c).1 ∧ (step s c).2 = (step' t c).2)
    {s : σ} {t : τ} {cs : List ι} (start : R s t) (run : Admitted step' ok t cs) :
    R (after step s cs) (after step' t cs) ∧ answers step s cs = answers step' t cs := by
  induction cs generalizing s t with
  | nil => exact ⟨start, rfl⟩
  | cons c cs ih =>
    obtain ⟨related, same⟩ := matched s t c start run.1
    obtain ⟨final, rest⟩ := ih related run.2
    exact ⟨final, by simp only [answers, same, rest]⟩

/-- **Simulation of a loop.** When a round keeps the states related and leaves both loops or neither, the loops end
alike. -/
theorem afterUntil_related {step : σ → ι → σ × Bool} {step' : τ → ι → τ × Bool} {R : σ → τ → Prop} {cs : List ι}
    (matched : ∀ s t, ∀ c ∈ cs, R s t → R (step s c).1 (step' t c).1 ∧ (step s c).2 = (step' t c).2)
    {s : σ} {t : τ} (start : R s t) :
    R (afterUntil step s cs).1 (afterUntil step' t cs).1 ∧ (afterUntil step s cs).2 = (afterUntil step' t cs).2 := by
  induction cs generalizing s t with
  | nil => exact ⟨start, rfl⟩
  | cons c cs ih =>
    obtain ⟨related, same⟩ := matched s t c List.mem_cons_self start
    rw [afterUntil, afterUntil, ← same]
    split
    · exact ⟨related, rfl⟩
    · exact ih (fun s t c member => matched s t c (List.mem_cons_of_mem _ member)) related

/-! ## Components made of parts -/

/-- `part s k` is what of a state belongs to the key `k`. A call changes the part of its own key only, and that part
depends on nothing else of the state. -/
structure Separates {κ : Type*} (step : σ → ι → σ × ο) (Inv : σ → Prop) (key : ι → κ) (part : σ → κ → τ) : Prop where
  keeps : ∀ s c, Inv s → Inv (step s c).1
  others : ∀ {s c k}, Inv s → key c ≠ k → part (step s c).1 k = part s k
  own : ∀ {s s' c}, Inv s → Inv s' → part s (key c) = part s' (key c) →
    part (step s c).1 (key c) = part (step s' c).1 (key c)

/-- **Separation.** What a run does to one part, the calls of that part do alone. -/
theorem Separates.after_filter {κ : Type*} [DecidableEq κ] {step : σ → ι → σ × ο} {Inv : σ → Prop} {key : ι → κ}
    {part : σ → κ → τ} (separates : Separates step Inv key part) {s s' : σ} {k : κ} (cs : List ι) (inv : Inv s)
    (inv' : Inv s') (same : part s k = part s' k) :
    part (after step s cs) k = part (after step s' (cs.filter fun c => key c = k)) k := by
  induction cs generalizing s s' with
  | nil => exact same
  | cons c cs ih =>
    by_cases own : key c = k
    · rw [List.filter_cons_of_pos (by simp only [own, decide_true])]
      subst own
      exact ih (separates.keeps s c inv) (separates.keeps s' c inv') (separates.own inv inv' same)
    · rw [List.filter_cons_of_neg (by simp only [own, decide_false, Bool.false_eq_true, not_false_eq_true])]
      exact ih (separates.keeps s c inv) inv' ((separates.others inv own).trans same)

end Runs
