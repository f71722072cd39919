import Mathlib

/-!
# Strictly sorted lists

Lists sorted by a strict relation: merging two of them in one pass, what the
head is, and that such a list is determined by its members.
-/

namespace SortedLists

variable {α : Type*}

/-- One merging pass: an element of the second list goes first unless the next
element of the first list comes before it. -/
def merge (before : α → α → Bool) : List α → List α → List α
  | [], bs => bs
  | a :: as, bs => bs.takeWhile (fun b => !before a b) ++ a :: merge before as (bs.dropWhile fun b => !before a b)

theorem merge_perm (before : α → α → Bool) (as bs : List α) : (merge before as bs).Perm (as ++ bs) := by
  induction as generalizing bs with
  | nil => exact .refl _
  | cons a as ih =>
    calc merge before (a :: as) bs
      _ = bs.takeWhile (fun b => !before a b) ++ a :: merge before as (bs.dropWhile fun b => !before a b) := rfl
      _ |>.Perm (bs.takeWhile (fun b => !before a b) ++ a :: (as ++ bs.dropWhile fun b => !before a b)) :=
        ((ih _).cons a).append_left _
      _ |>.Perm (a :: as ++ (bs.takeWhile (fun b => !before a b) ++ bs.dropWhile fun b => !before a b)) := by
        apply List.perm_append_comm_assoc _ (a :: as) _ |>.trans
        exact .refl _
      _ = a :: as ++ bs := by rw [List.takeWhile_append_dropWhile]

theorem mem_merge {before : α → α → Bool} {as bs : List α} {x : α} : x ∈ merge before as bs ↔ x ∈ as ∨ x ∈ bs := by
  rw [(merge_perm before as bs).mem_iff, List.mem_append]

theorem length_merge (before : α → α → Bool) (as bs : List α) : (merge before as bs).length = as.length + bs.length := by
  rw [(merge_perm before as bs).length_eq, List.length_append]

/-- Merging keeps the order when no two elements of the two lists are incomparable. -/
theorem pairwise_merge {before : α → α → Bool} (trans : ∀ a b c, before a b → before b c → before a c)
    {as bs : List α} (sortedA : as.Pairwise fun a b => before a b) (sortedB : bs.Pairwise fun a b => before a b)
    (apart : ∀ a ∈ as, ∀ b ∈ bs, before a b ∨ before b a) :
    (merge before as bs).Pairwise fun a b => before a b := by
  induction as generalizing bs with
  | nil => exact sortedB
  | cons a as ih =>
    obtain ⟨first, sortedA⟩ := List.pairwise_cons.mp sortedA
    have split := List.takeWhile_append_dropWhile (p := fun b => !before a b) (l := bs)
    generalize front : bs.takeWhile (fun b => !before a b) = early at split
    generalize back : bs.dropWhile (fun b => !before a b) = late at split
    rw [← split] at sortedB
    obtain ⟨sortedEarly, sortedLate, cross⟩ := List.pairwise_append.mp sortedB
    have earlyA : ∀ b ∈ early, before b a := by
      intro b hb
      have stays : (fun b => !before a b) b = true := by
        rw [← front] at hb
        exact @List.mem_takeWhile_imp _ (fun b => !before a b) _ _ hb
      have inB : b ∈ bs := by
        rw [← split]
        exact List.mem_append_left _ hb
      rcases apart a List.mem_cons_self b inB with less | less
      · simp [less] at stays
      · exact less
    have lateA : ∀ b ∈ late, before a b := by
      intro b hb
      cases late with
      | nil => cases hb
      | cons d late =>
        have head : before a d := by
          have := List.head?_dropWhile_not (fun b => !before a b) bs
          rw [back] at this
          simpa using this
        rcases List.mem_cons.mp hb with rfl | hb
        · exact head
        · exact trans a d b head ((List.pairwise_cons.mp sortedLate).1 b hb)
    have rest : ∀ x ∈ merge before as late, before a x := by
      intro x hx
      rcases mem_merge.mp hx with hx | hx
      · exact first x hx
      · exact lateA x hx
    rw [merge, front, back]
    refine List.pairwise_append.mpr ⟨sortedEarly, List.pairwise_cons.mpr ⟨rest, ?_⟩, ?_⟩
    · apply ih sortedA sortedLate
      intro x hx b hb
      apply apart x (List.mem_cons_of_mem _ hx) b
      rw [← split]
      exact List.mem_append_right _ hb
    · intro b hb x hx
      rcases List.mem_cons.mp hx with rfl | hx
      · exact earlyA b hb
      · rcases mem_merge.mp hx with inA | inLate
        · exact trans b a x (earlyA b hb) (first x inA)
        · exact cross b hb x inLate

/-- The head of a sorted list is the member that comes before all others. -/
theorem head?_eq_some {r : α → α → Prop} (asymm : ∀ a b, r a b → ¬ r b a) {l : List α} (sorted : l.Pairwise r) {x : α}
    (member : x ∈ l) (least : ∀ y ∈ l, y = x ∨ r x y) : l.head? = some x := by
  cases l with
  | nil => cases member
  | cons a l =>
    rcases List.mem_cons.mp member with rfl | inside
    · rfl
    · rcases least a List.mem_cons_self with rfl | less
      · rfl
      · exact (asymm _ _ less ((List.pairwise_cons.mp sorted).1 x inside)).elim

/-- Two strictly sorted lists with the same members are equal. -/
theorem ext {r : α → α → Prop} (asymm : ∀ a b, r a b → ¬ r b a) {l l' : List α} (sorted : l.Pairwise r)
    (sorted' : l'.Pairwise r) (same : ∀ x, x ∈ l ↔ x ∈ l') : l = l' := by
  have distinct : ∀ {l : List α}, l.Pairwise r → l.Nodup := fun sorted =>
    sorted.imp fun {a b} less => by
      rintro rfl
      exact asymm a a less less
  apply List.Perm.eq_of_pairwise (fun a b _ _ less less' => (asymm a b less less').elim) sorted sorted'
  exact (List.perm_ext_iff_of_nodup (distinct sorted) (distinct sorted')).mpr same

end SortedLists
