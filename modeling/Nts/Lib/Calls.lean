import Mathlib.Logic.Relation

/-!
# Programs of calls

A program asks questions of a world and goes on with the answers, until it is done or leaves by an exception. The world
may answer in any way that its relation admits; each question has an answer of its own type. `Ensures` is the weakest
precondition: whatever the answers are, the program asks only what it may and ends as its postconditions say. `ensures_iff`
connects it to the runs.
-/

namespace Nts

inductive Calls (Q : Type) (A : Q → Type) (ε α : Type) where
  | done (a : α)
  | raise (e : ε)
  | call (q : Q) (next : A q → Calls Q A ε α)

/-- What questions a state allows, and how it answers. -/
structure World (Q : Type) (A : Q → Type) (σ : Type) where
  allows : σ → Q → Prop
  answers : σ → (q : Q) → A q → σ → Prop

namespace Calls
variable {Q : Type} {A : Q → Type} {ε α β σ : Type}

def bind : Calls Q A ε α → (α → Calls Q A ε β) → Calls Q A ε β
  | .done a, f => f a
  | .raise e, _ => .raise e
  | .call q next, f => .call q fun a => (next a).bind f

instance : Monad (Calls Q A ε) where
  pure := .done
  bind := bind

/-- The answer to one question. -/
def ask (q : Q) : Calls Q A ε (A q) := .call q .done

/-- A program whose exceptions are caught. -/
def attempt {ε' : Type} : Calls Q A ε α → Calls Q A ε' (Except ε α)
  | .done a => .done (.ok a)
  | .raise e => .done (.error e)
  | .call q next => .call q fun a => (next a).attempt

/-! ## Runs -/

variable (w : World Q A σ)

/-- How a run ends. -/
inductive Ends : σ → Calls Q A ε α → Except ε α → σ → Prop where
  | done (s : σ) (a : α) : Ends s (.done a) (.ok a) s
  | raise (s : σ) (e : ε) : Ends s (.raise e) (.error e) s
  | call {s s' s'' : σ} {q : Q} {a : A q} {next : A q → Calls Q A ε α} {r : Except ε α} (here : w.answers s q a s')
      (later : Ends s' (next a) r s'') : Ends s (.call q next) r s''

/-- A run comes to a question. -/
inductive Asks : σ → Calls Q A ε α → σ → Q → Prop where
  | here (s : σ) (q : Q) (next : A q → Calls Q A ε α) : Asks s (.call q next) s q
  | later {s s' s'' : σ} {q q' : Q} {a : A q} {next : A q → Calls Q A ε α} (here : w.answers s q a s')
      (later : Asks s' (next a) s'' q') : Asks s (.call q next) s'' q'

/-- However it is answered, a program asks what it may, and ends as it should. -/
def Ensures (p : Calls Q A ε α) (ok : α → σ → Prop) (error : ε → σ → Prop) (s : σ) : Prop :=
  match p with
  | .done a => ok a s
  | .raise e => error e s
  | .call q next => w.allows s q ∧ ∀ a s', w.answers s q a s' → (next a).Ensures ok error s'

variable {w} {ok : α → σ → Prop} {error : ε → σ → Prop}

/-- **Runs.** -/
theorem ensures_iff {p : Calls Q A ε α} {s : σ} : p.Ensures w ok error s ↔
    (∀ s' q, Asks w s p s' q → w.allows s' q) ∧ (∀ a s', Ends w s p (.ok a) s' → ok a s') ∧
      ∀ e s', Ends w s p (.error e) s' → error e s' := by
  induction p generalizing s with
  | done a =>
    refine ⟨fun here => ⟨fun s' q asks => (by cases asks), fun a' s' ends => ?_, fun e s' ends => (by cases ends)⟩, fun all => ?_⟩
    · cases ends
      exact here
    · exact all.2.1 a s (.done s a)
  | raise e =>
    refine ⟨fun here => ⟨fun s' q asks => (by cases asks), fun a s' ends => (by cases ends), fun e' s' ends => ?_⟩, fun all => ?_⟩
    · cases ends
      exact here
    · exact all.2.2 e s (.raise s e)
  | call q next ih =>
    constructor
    · rintro ⟨may, all⟩
      refine ⟨fun s' q' asks => ?_, fun a s' ends => ?_, fun e s' ends => ?_⟩
      · cases asks with
        | here => exact may
        | later here asks => exact (ih _ |>.mp (all _ _ here)).1 _ _ asks
      · cases ends with
        | call here ends => exact (ih _ |>.mp (all _ _ here)).2.1 _ _ ends
      · cases ends with
        | call here ends => exact (ih _ |>.mp (all _ _ here)).2.2 _ _ ends
    · rintro ⟨may, done, raised⟩
      refine ⟨may s q (.here s q next), fun a s' here => (ih a).mpr ⟨fun s'' q' asks => ?_, fun a' s'' ends => ?_, fun e s'' ends => ?_⟩⟩
      · exact may s'' q' (.later here asks)
      · exact done a' s'' (.call here ends)
      · exact raised e s'' (.call here ends)

/-! ## Rules -/

theorem Ensures.mono {p : Calls Q A ε α} {ok' : α → σ → Prop} {error' : ε → σ → Prop} {s : σ} (here : p.Ensures w ok error s)
    (done : ∀ a s', ok a s' → ok' a s') (raised : ∀ e s', error e s' → error' e s') : p.Ensures w ok' error' s := by
  induction p generalizing s with
  | done a => exact done a s here
  | raise e => exact raised e s here
  | call q next ih => exact ⟨here.1, fun a s' answered => ih a (here.2 a s' answered)⟩

theorem ensures_pure {a : α} {s : σ} : (pure a : Calls Q A ε α).Ensures w ok error s ↔ ok a s := Iff.rfl

theorem ensures_ask {q : Q} {ok : A q → σ → Prop} {s : σ} :
    (ask q : Calls Q A ε (A q)).Ensures w ok error s ↔ w.allows s q ∧ ∀ a s', w.answers s q a s' → ok a s' := Iff.rfl

theorem ensures_bind {p : Calls Q A ε α} {f : α → Calls Q A ε β} {ok : β → σ → Prop} {s : σ} :
    (p >>= f).Ensures w ok error s ↔ p.Ensures w (fun a s' => (f a).Ensures w ok error s') error s := by
  change (p.bind f).Ensures w ok error s ↔ _
  induction p generalizing s with
  | done a => exact Iff.rfl
  | raise e => exact Iff.rfl
  | call q next ih => exact and_congr_right fun _ => forall₂_congr fun a s' => imp_congr_right fun _ => ih a

theorem ensures_attempt {ε' : Type} {p : Calls Q A ε α} {ok : Except ε α → σ → Prop} {error : ε' → σ → Prop} {s : σ} :
    (p.attempt : Calls Q A ε' (Except ε α)).Ensures w ok error s ↔ p.Ensures w (fun a => ok (.ok a)) (fun e => ok (.error e)) s := by
  induction p generalizing s with
  | done a => exact Iff.rfl
  | raise e => exact Iff.rfl
  | call q next ih => exact and_congr_right fun _ => forall₂_congr fun a s' => imp_congr_right fun _ => ih a

end Calls

end Nts
