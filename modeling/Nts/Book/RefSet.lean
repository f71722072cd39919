import Nts.Book.Locates
import Nts.Book.OrderBookRuns

/-!
# The reference of the table

Which locates are registered, and a naive reference book for each of them. `Refines.handle` lifts
what one call does to one book (`Follows.step`) to what one message does to the table.
-/

namespace Nts.Book
open Reading Itch

/-- The registered locates, and the live orders of each. -/
structure RefSet where
  known : BitVec 16 → Bool := fun _ => false
  book : BitVec 16 → RefBook := fun _ => ∅

namespace RefSet

/-- One event on the reference. -/
def handle (r : RefSet) : Event → RefSet × Option ApplyResult
  | .directory msg => ({ r with known := fun locate => decide (msg.header.stockLocate = locate) || r.known locate }, none)
  | .move locate call =>
    if r.known locate then
      ({ r with book := fun other => if locate = other then ((r.book locate).stepReserved call).1 else r.book other },
        some ((r.book locate).stepReserved call).2)
    else (r, none)
  | _ => (r, none)

/-- One message on the reference. -/
def dispatch (mem : Memory) (r : RefSet) (mv : MessageView) : RefSet × Option ApplyResult := r.handle (eventOf mem mv)

/-- An event that asks a registered book for a new order asks for less than 2^31 shares. -/
def Small (r : RefSet) : Event → Prop
  | .move locate call => r.known locate = true → ∀ shares ∈ (r.book locate).inserted call, shares.toNat < 2 ^ 31
  | _ => True

instance (r : RefSet) : ∀ e, Decidable (r.Small e)
  | .move .. => inferInstanceAs (Decidable (_ → ∀ shares ∈ _, _ < _))
  | .unknown | .directory _ | .quiet => inferInstanceAs (Decidable True)

end RefSet

/-- Every book of the table is related to the reference's book of its locate. -/
structure Refines (R : OrderBook → RefBook → Prop) (s : BookSet) (r : RefSet) : Prop where
  sized : s.Sized
  known : ∀ locate, s.known locate = r.known locate
  book : ∀ locate, R (s.book locate) (r.book locate)

section
variable {R : OrderBook → RefBook → Prop} {ok : RefBook → Prop} {s : BookSet} {r : RefSet}

theorem refines_new (start : R {} ∅) : Refines R {} {} := ⟨BookSet.sized_new, fun _ => rfl, fun _ => start⟩

/-- **One event.** The table follows its reference, and answers alike. -/
theorem Refines.handle (follows : Follows R ok) (refines : Refines R s r) (e : Event) (small : r.Small e)
    (room : ∀ locate, ok ((r.handle e).1.book locate)) :
    Refines R (s.handle e).1 (r.handle e).1 ∧ (s.handle e).2 = (r.handle e).2 := by
  obtain ⟨sized, known, book⟩ := refines
  cases e with
  | directory msg =>
    refine ⟨⟨BookSet.sized_onStockDirectory sized msg, fun locate => ?_, fun locate => ?_⟩, rfl⟩
    · simp only [BookSet.handle, RefSet.handle, BookSet.known_onStockDirectory sized, known]
    · simp only [BookSet.handle, BookSet.book_onStockDirectory sized]
      exact book locate
  | move locate call =>
    simp only [BookSet.handle, RefSet.handle, known] at room ⊢
    by_cases registered : r.known locate = true
    · simp only [registered, if_true] at room ⊢
      have here : ok ((r.book locate).stepReserved call).1 := by
        simpa only [if_true] using room locate
      obtain ⟨related, same⟩ := follows.step (book locate) call (small registered) here
      refine ⟨⟨BookSet.sized_setBook sized locate _, known, fun other => ?_⟩, congrArg some same⟩
      rw [BookSet.book_setBook sized ((known locate).trans registered)]
      dsimp only
      by_cases own : locate = other
      · rw [if_pos own, if_pos own]
        exact related
      · rw [if_neg own, if_neg own]
        exact book other
    · rw [if_neg registered, if_neg registered]
      exact ⟨⟨sized, known, book⟩, rfl⟩
  | unknown => exact ⟨⟨sized, known, book⟩, rfl⟩
  | quiet => exact ⟨⟨sized, known, book⟩, rfl⟩

/-- Index and totals follow with no bound on the number of orders. -/
theorem Refines.track (refines : Refines Tracks s r) {e : Event} (small : r.Small e) :
    Refines Tracks (s.handle e).1 (r.handle e).1 ∧ (s.handle e).2 = (r.handle e).2 :=
  refines.handle follows_tracks e small fun _ => trivial

/-- Every book in the container is the book of a locate. -/
theorem Refines.mem_books (refines : Refines R s r) {b : OrderBook} (member : b ∈ s.books.toList) : ∃ m, R b m := by
  obtain ⟨i, inside, rfl⟩ := List.mem_iff_getElem.mp member
  rw [Array.length_toList] at inside
  have bounded := refines.sized.bounded
  have locate : (BitVec.ofNat 16 i).toNat = i := by
    rw [BitVec.toNat_ofNat, Nat.mod_eq_of_lt (by omega)]
  have related := refines.book (.ofNat 16 i)
  rw [BookSet.book, locate, Array.getD_eq_getD_getElem?, Array.getElem?_eq_getElem inside] at related
  exact ⟨_, related⟩

end
end Nts.Book
