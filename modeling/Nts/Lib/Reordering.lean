import Nts.Lib.Runs

/-!
# Runs whose calls change places

A state has parts, and a call names some of them: it reads and changes no others. Then the order of two calls that
name no part in common does not matter. Two runs in which every part sees the same calls in the same order
end in the same state, and every call is answered in one as in the other.
-/

namespace Runs
variable {σ ι ο κ τ : Type*}

/-- The calls of a run with their answers. -/
def log (step : σ → ι → σ × ο) (s : σ) (cs : List ι) : List (ι × ο) := cs.zip (answers step s cs)

@[simp] theorem log_cons (step : σ → ι → σ × ο) (s : σ) (c : ι) (cs : List ι) :
    log step s (c :: cs) = (c, (step s c).2) :: log step (step s c).1 cs := rfl

/-- A call reads and changes the parts it names only, and the parts are the whole state. -/
structure Local (step : σ → ι → σ × ο) (names : ι → κ → Prop) (part : σ → κ → τ) : Prop where
  ext : ∀ {s s'}, (∀ k, part s k = part s' k) → s = s'
  others : ∀ {s c k}, ¬ names c k → part (step s c).1 k = part s k
  own : ∀ {s s' c}, (∀ k, names c k → part s k = part s' k) →
    (step s c).2 = (step s' c).2 ∧ ∀ k, names c k → part (step s c).1 k = part (step s' c).1 k

section
variable {step : σ → ι → σ × ο} {names : ι → κ → Prop} {part : σ → κ → τ} {c d : ι}

/-- A call is answered alike before and behind one that names nothing it names. -/
theorem Local.unseen (fact : Local step names part) (apart : ∀ k, names c k → ¬ names d k) (s : σ) :
    (step (step s d).1 c).2 = (step s c).2 ∧ ∀ k, names c k → part (step (step s d).1 c).1 k = part (step s c).1 k :=
  fact.own fun k named => fact.others (apart k named)

theorem Local.commute (fact : Local step names part) (apart : ∀ k, names c k → ¬ names d k) (s : σ) :
    (step (step s c).1 d).1 = (step (step s d).1 c).1 := by
  obtain ⟨_, ofC⟩ := fact.unseen apart s
  obtain ⟨_, ofD⟩ := fact.unseen (fun k ofD ofC => apart k ofC ofD) s
  apply fact.ext
  intro k
  by_cases named : names c k
  · rw [ofC k named, fact.others (apart k named)]
  · by_cases named' : names d k
    · rw [ofD k named', fact.others named]
    · rw [fact.others named', fact.others named, fact.others named, fact.others named']

/-- A call moves in front of calls that name nothing it names. -/
theorem Local.move (fact : Local step names part) {front : List ι} (apart : ∀ d ∈ front, ∀ k, names c k → ¬ names d k)
    (back : List ι) (s : σ) :
    after step s (front ++ c :: back) = after step s (c :: (front ++ back)) ∧
      (log step s (front ++ c :: back)).Perm (log step s (c :: (front ++ back))) := by
  induction front generalizing s with
  | nil => exact ⟨rfl, .refl _⟩
  | cons d front ih =>
    have here := apart d List.mem_cons_self
    obtain ⟨same, logs⟩ := ih (fun e member => apart e (List.mem_cons_of_mem _ member)) (step s d).1
    have swapped := fact.commute here s
    have ofC := (fact.unseen here s).1
    have ofD := (fact.unseen (fun k ofD ofC => here k ofC ofD) s).1
    refine ⟨?_, ?_⟩
    · rw [List.cons_append, after_cons, same, after_cons, after_cons, List.cons_append, after_cons, swapped]
    · rw [List.cons_append, List.cons_append, log_cons, log_cons, log_cons, swapped, ofD]
      rw [log_cons, ofC] at logs
      exact (logs.cons _).trans (.swap _ _ _)

variable [∀ c k, Decidable (names c k)]

/-- The calls that name a part. -/
def naming (names : ι → κ → Prop) [∀ c k, Decidable (names c k)] (k : κ) (cs : List ι) : List ι :=
  cs.filter fun c => names c k

theorem naming_append (k : κ) (cs ds : List ι) : naming names k (cs ++ ds) = naming names k cs ++ naming names k ds :=
  List.filter_append ..

theorem naming_cons {k : κ} (named : names c k) (cs : List ι) : naming names k (c :: cs) = c :: naming names k cs := by
  simp only [naming, List.filter_cons, named, decide_true, if_true]

theorem naming_skip {k : κ} (unnamed : ¬ names c k) (cs : List ι) : naming names k (c :: cs) = naming names k cs := by
  simp only [naming, List.filter_cons, unnamed, decide_false, Bool.false_eq_true, if_false]

theorem mem_naming {k : κ} {cs : List ι} : c ∈ naming names k cs ↔ c ∈ cs ∧ names c k := by
  rw [naming, List.mem_filter, decide_eq_true_eq]

/-- What comes first for one of its parts comes first for all of them. -/
theorem split_of_naming {k : κ} (named : names c k) {cs ds : List ι} (same : ∀ k, naming names k (c :: cs) = naming names k ds) :
    ∃ front back, ds = front ++ c :: back ∧ (∀ d ∈ front, ∀ k, names c k → ¬ names d k) ∧
      ∀ k, naming names k cs = naming names k (front ++ back) := by
  have first : naming names k ds = c :: naming names k cs := by
    rw [← same k, naming_cons named]
  obtain ⟨front, back, rfl, before, _⟩ := List.filter_eq_cons_iff.mp first
  have unnamed : ∀ d ∈ front, ¬ names d k := fun d member => of_decide_eq_false (Bool.eq_false_iff.mpr (before d member))
  have apart : ∀ k', names c k' → naming names k' front = [] := by
    intro k' named'
    have equal := same k'
    rw [naming_append, naming_cons named'] at equal
    cases found : naming names k' front with
    | nil => rfl
    | cons d ds =>
      -- it would be the call itself, which names `k` too
      rw [found] at equal
      obtain rfl : c = d := (List.cons.inj equal).1
      have member := (mem_naming.mp (found ▸ List.mem_cons_self)).1
      exact (unnamed c member named).elim
  refine ⟨front, back, rfl, fun d member k' named' also => ?_, fun k' => ?_⟩
  · have inside := mem_naming.mpr ⟨member, also⟩
    rw [apart k' named'] at inside
    exact List.not_mem_nil inside
  · have equal := same k'
    rw [naming_append] at equal ⊢
    by_cases named' : names c k'
    · rw [naming_cons named', naming_cons named', apart k' named', List.nil_append] at equal
      rw [apart k' named', List.nil_append]
      exact (List.cons.inj equal).2
    · rwa [naming_skip named', naming_skip named'] at equal

/-- **Reordering.** Runs that show every part the same calls in the same order do the same and answer the same. -/
theorem Local.reordered (fact : Local step names part) (covered : ∀ c, ∃ k, names c k) {cs ds : List ι}
    (same : ∀ k, naming names k cs = naming names k ds) (s : σ) :
    after step s cs = after step s ds ∧ (log step s cs).Perm (log step s ds) := by
  induction cs generalizing ds s with
  | nil =>
    cases ds with
    | nil => exact ⟨rfl, .refl _⟩
    | cons d ds =>
      obtain ⟨k, named⟩ := covered d
      have equal := same k
      rw [naming_cons named] at equal
      cases equal
  | cons c cs ih =>
    obtain ⟨k, named⟩ := covered c
    obtain ⟨front, back, rfl, apart, rest⟩ := split_of_naming named same
    obtain ⟨moved, logs⟩ := fact.move apart back s
    obtain ⟨final, logs'⟩ := ih rest (step s c).1
    rw [moved, after_cons, after_cons]
    refine ⟨final, ?_⟩
    rw [log_cons] at logs ⊢
    exact (logs'.cons _).trans logs.symm

end
end Runs
