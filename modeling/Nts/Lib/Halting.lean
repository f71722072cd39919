import Nts.Lib.Runs

/-!
# Loops that halt on an error

`f` takes the step of a component, or ends the loop with an error. The loop goes through exactly when `f` goes on at every
state of the component's run, and ends with the error of the first state at which it does not.
-/

namespace Runs
variable {σ ι ο ε : Type*} {step : σ → ι → σ × ο} {f : σ → ι → Except ε σ}

/-- Where `f` goes on it takes the step. -/
def Follows (step : σ → ι → σ × ο) (f : σ → ι → Except ε σ) : Prop := ∀ s c s', f s c = .ok s' → s' = (step s c).1

/-- `f` goes on. -/
def Goes (f : σ → ι → Except ε σ) (s : σ) (c : ι) : Prop := ∃ s', f s c = .ok s'

theorem foldlM_cons_of_goes (follows : Follows step f) {s : σ} {c : ι} (goes : Goes f s c) (cs : List ι) :
    (c :: cs).foldlM f s = cs.foldlM f (step s c).1 := by
  obtain ⟨s', here⟩ := goes
  rw [List.foldlM_cons, here, ← follows s c s' here]
  rfl

theorem foldlM_cons_of_error {s : σ} {c : ι} {e : ε} (here : f s c = .error e) (cs : List ι) :
    (c :: cs).foldlM f s = .error e := by
  rw [List.foldlM_cons, here]
  rfl

theorem goes_or_error (f : σ → ι → Except ε σ) (s : σ) (c : ι) : Goes f s c ∨ ∃ e, f s c = .error e := by
  cases here : f s c with
  | ok s' => exact .inl ⟨s', here⟩
  | error e => exact .inr ⟨e, rfl⟩

/-- **Through** the whole list. -/
theorem foldlM_ok_iff (follows : Follows step f) {s s' : σ} {cs : List ι} :
    cs.foldlM f s = .ok s' ↔ (∀ i c, cs[i]? = some c → Goes f (after step s (cs.take i)) c) ∧ s' = after step s cs := by
  induction cs generalizing s with
  | nil =>
    constructor
    · intro same
      cases same
      exact ⟨fun i c found => (by cases found), rfl⟩
    · rintro ⟨_, rfl⟩
      rfl
  | cons c cs ih =>
    rcases goes_or_error f s c with goes | ⟨e, fails⟩
    · rw [foldlM_cons_of_goes follows goes, ih]
      refine and_congr ⟨fun later i => ?_, fun all i => all (i + 1)⟩ Iff.rfl
      cases i with
      | zero =>
        intro c' found
        cases found
        exact goes
      | succ i => exact later i
    · rw [foldlM_cons_of_error fails]
      refine iff_of_false (fun same => by cases same) fun both => ?_
      obtain ⟨s', here⟩ := both.1 0 c rfl
      rw [List.take_zero, after_nil, fails] at here
      cases here

/-- **Up to** the first state at which it does not go on. -/
theorem foldlM_error_iff (follows : Follows step f) {s : σ} {e : ε} {cs : List ι} :
    cs.foldlM f s = .error e ↔ ∃ i c, cs[i]? = some c ∧ f (after step s (cs.take i)) c = .error e ∧
      ∀ j < i, ∀ c', cs[j]? = some c' → Goes f (after step s (cs.take j)) c' := by
  induction cs generalizing s with
  | nil =>
    refine iff_of_false (fun same => by cases same) ?_
    rintro ⟨i, c, found, _⟩
    cases found
  | cons c cs ih =>
    rcases goes_or_error f s c with goes | ⟨e', fails⟩
    · rw [foldlM_cons_of_goes follows goes, ih]
      constructor
      · rintro ⟨i, c', found, error, before⟩
        refine ⟨i + 1, c', found, error, fun j less => ?_⟩
        cases j with
        | zero =>
          intro c'' found
          cases found
          exact goes
        | succ j => exact before j (by omega)
      · rintro ⟨i, c', found, error, before⟩
        cases i with
        | zero =>
          cases found
          obtain ⟨s', here⟩ := goes
          rw [List.take_zero, after_nil, here] at error
          cases error
        | succ i => exact ⟨i, c', found, error, fun j less => before (j + 1) (by omega)⟩
    · rw [foldlM_cons_of_error fails]
      constructor
      · intro same
        cases same
        exact ⟨0, c, rfl, fails, fun j less => by omega⟩
      · rintro ⟨i, c', found, error, before⟩
        cases i with
        | zero =>
          cases found
          rw [← error]
          exact fails.symm
        | succ i =>
          obtain ⟨s', here⟩ := before 0 (by omega) c rfl
          rw [List.take_zero, after_nil, fails] at here
          cases here

end Runs
