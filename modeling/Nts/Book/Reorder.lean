import Nts.Lib.Reordering
import Nts.Lib.SortedLists
import Nts.Book.OrderBookTotals

/-!
# Calls that change places

A call on a book reads and changes the orders it names only. Two histories that tell every
reference the same calls in the same order leave books that nothing can tell apart, and answer every call alike.
-/

namespace Nts.Book
open Runs

namespace OrderBook.Call

/-- The references a call names. -/
def Names : Call → BitVec 64 → Prop
  | .add ref .., k => ref = k
  | .reduce ref _, k => ref = k
  | .remove ref, k => ref = k
  | .replace originalRef newRef .., k => originalRef = k ∨ newRef = k

instance : ∀ (c : Call) (k : BitVec 64), Decidable (c.Names k)
  | .add .., _ | .reduce .., _ | .remove _, _ => inferInstanceAs (Decidable (_ = _))
  | .replace .., _ => inferInstanceAs (Decidable (_ ∨ _))

theorem names_some (c : Call) : ∃ k, c.Names k := by
  cases c with
  | add ref side shares price => exact ⟨ref, rfl⟩
  | reduce ref shares => exact ⟨ref, rfl⟩
  | remove ref => exact ⟨ref, rfl⟩
  | replace originalRef newRef shares price => exact ⟨originalRef, Or.inl rfl⟩

end OrderBook.Call

namespace RefBook
variable {m m' : RefBook} {ref k : BitVec 64}

theorem mem_congr (same : m.lookup ref = m'.lookup ref) : ref ∈ m ↔ ref ∈ m' := by
  rw [← Finmap.lookup_isSome, ← Finmap.lookup_isSome, same]

theorem stepReserved_others {c : OrderBook.Call} (unnamed : ¬ c.Names k) : (m.stepReserved c).1.lookup k = m.lookup k := by
  cases c with
  | add ref side shares price =>
    have other : k ≠ ref := fun same => unnamed same.symm
    rw [stepReserved, step]
    split
    · rfl
    · split
      · rfl
      · exact Finmap.lookup_insert_of_ne _ other
  | reduce ref shares =>
    have other : k ≠ ref := fun same => unnamed same.symm
    simp only [stepReserved, step]
    split
    · rfl
    · dsimp only
      split
      · exact Finmap.lookup_erase_ne other
      · exact Finmap.lookup_insert_of_ne _ other
  | remove ref =>
    have other : k ≠ ref := fun same => unnamed same.symm
    simp only [stepReserved, step]
    split
    · rfl
    · exact Finmap.lookup_erase_ne other
  | replace originalRef newRef shares price =>
    have other : k ≠ originalRef := fun same => unnamed (Or.inl same.symm)
    have other' : k ≠ newRef := fun same => unnamed (Or.inr same.symm)
    rw [stepReserved, step]
    split
    · exact Finmap.lookup_erase_ne other
    · split
      · rfl
      · split
        · rfl
        · exact (Finmap.lookup_insert_of_ne _ other').trans (Finmap.lookup_erase_ne other)

theorem lookup_erase_congr (a : BitVec 64) (same : m.lookup k = m'.lookup k) : (m.erase a).lookup k = (m'.erase a).lookup k := by
  rw [Finmap.lookup_erase_ite, Finmap.lookup_erase_ite, same]

theorem lookup_insert_congr (a : BitVec 64) (o : Resting) (same : m.lookup k = m'.lookup k) :
    (m.insert a o).lookup k = (m'.insert a o).lookup k := by
  rw [Finmap.lookup_insert_ite, Finmap.lookup_insert_ite, same]

theorem stepReserved_own {c : OrderBook.Call} (same : ∀ k, c.Names k → m.lookup k = m'.lookup k) :
    (m.stepReserved c).2 = (m'.stepReserved c).2 ∧
      ∀ k, c.Names k → (m.stepReserved c).1.lookup k = (m'.stepReserved c).1.lookup k := by
  cases c with
  | add ref side shares price =>
    have here := mem_congr (same ref rfl)
    simp only [stepReserved, step, here]
    split
    · exact ⟨rfl, same⟩
    · split
      · exact ⟨rfl, same⟩
      · exact ⟨rfl, fun k named => lookup_insert_congr ref _ (same k named)⟩
  | reduce ref shares =>
    have here := same ref rfl
    simp only [stepReserved, step, here]
    split
    · exact ⟨rfl, same⟩
    · refine ⟨rfl, fun k named => ?_⟩
      dsimp only
      split
      · exact lookup_erase_congr ref (same k named)
      · exact lookup_insert_congr ref _ (same k named)
  | remove ref =>
    have here := same ref rfl
    simp only [stepReserved, step, here]
    split
    · exact ⟨rfl, same⟩
    · exact ⟨rfl, fun k named => lookup_erase_congr ref (same k named)⟩
  | replace originalRef newRef shares price =>
    have live := same originalRef (Or.inl rfl)
    have old := mem_congr live
    have new := mem_congr (same newRef (Or.inr rfl))
    simp only [stepReserved, step, live, old, new]
    split
    · exact ⟨rfl, fun k named => lookup_erase_congr originalRef (same k named)⟩
    · split
      · exact ⟨rfl, same⟩
      · split
        · exact ⟨rfl, same⟩
        · exact ⟨rfl, fun k named => lookup_insert_congr newRef _ (lookup_erase_congr originalRef (same k named))⟩

/-- A call is local to the references it names. -/
theorem local_stepReserved : Local stepReserved OrderBook.Call.Names fun m k => m.lookup k where
  ext := fun same => Finmap.ext_lookup same
  others := stepReserved_others
  own := stepReserved_own

end RefBook

/-! ## Books that nothing tells apart -/

/-- What can be seen of two books. -/
structure SeenAlike (b b' : OrderBook) : Prop where
  sharesOf : ∀ ref, b.sharesOf ref = b'.sharesOf ref
  liveOrders : b.liveOrders = b'.liveOrders
  restingShares : b.restingShares = b'.restingShares
  levels : ∀ buy, (b.ladder buy).levels = (b'.ladder buy).levels
  best : ∀ buy, (b.ladder buy).best = (b'.ladder buy).best
  /-- Whatever is done to both, they answer alike. -/
  later : ∀ cs, Admitted OrderBook.step OrderBook.Admits b cs → Admitted OrderBook.step OrderBook.Admits b' cs →
    answers OrderBook.step b cs = answers OrderBook.step b' cs

section
variable {b b' : OrderBook} {m : RefBook}

/-- What a ladder lists is a matter of the orders. -/
theorem Rep.levels_eq (rep : Rep b m) (rep' : Rep b' m) (buy : Bool) : (b.ladder buy).levels = (b'.ladder buy).levels := by
  have asymm : ∀ l l' : Level, OrderBook.Better buy l.price l'.price → ¬ OrderBook.Better buy l'.price l.price := by
    intro l l' better worse
    cases buy
    · exact BitVec.lt_asymm better worse
    · exact BitVec.lt_asymm better worse
  apply SortedLists.ext asymm (rep.toShows.aggregates buy).sorted (rep'.toShows.aggregates buy).sorted
  intro l
  rw [(rep.ladder buy).inv.mem_levels, (rep'.ladder buy).inv.mem_levels, (rep.ladder buy).level, (rep'.ladder buy).level]

/-- A run follows the reference. -/
theorem Rep.run (rep : Rep b m) {cs : List OrderBook.Call} (run : Admitted OrderBook.step OrderBook.Admits b cs) :
    Rep (after OrderBook.step b cs) (after RefBook.stepReserved m cs) ∧
      answers OrderBook.step b cs = answers RefBook.stepReserved m cs := by
  induction cs generalizing b m with
  | nil => exact ⟨rep, rfl⟩
  | cons c cs ih =>
    obtain ⟨⟨fits, few⟩, later⟩ := run
    obtain ⟨next, answer⟩ := rep.step c fits (rep.few_step fits few)
    obtain ⟨final, rest⟩ := ih next later
    exact ⟨final, by rw [answers, answers, answer, rest]⟩

theorem Rep.seenAlike (rep : Rep b m) (rep' : Rep b' m) : SeenAlike b b' := by
  have levels := rep.levels_eq rep'
  refine ⟨fun ref => ?_, ?_, ?_, levels, fun buy => ?_, ?_⟩
  · exact BitVec.eq_of_toNat_eq ((rep.indexes.sharesOf ref).trans (rep'.indexes.sharesOf ref).symm)
  · exact rep.indexes.size.trans rep'.indexes.size.symm
  · exact BitVec.eq_of_toNat_eq (rep.restingShares.trans rep'.restingShares.symm)
  · rw [(rep.ladder buy).inv.best_eq, (rep'.ladder buy).inv.best_eq, levels]
  · exact fun cs run run' => (rep.run run).2.trans (rep'.run run').2.symm

end

/-- **Order of calls.** Two histories in which every reference sees the same calls in the same order. -/
theorem book_reordered (cs ds : List OrderBook.Call) (run : Admitted OrderBook.step OrderBook.Admits {} cs)
    (run' : Admitted OrderBook.step OrderBook.Admits {} ds)
    (same : ∀ ref, naming OrderBook.Call.Names ref cs = naming OrderBook.Call.Names ref ds) :
    (log OrderBook.step {} cs).Perm (log OrderBook.step {} ds) ∧
      SeenAlike (after OrderBook.step {} cs) (after OrderBook.step {} ds) := by
  obtain ⟨rep, answered⟩ := rep_new.run run
  obtain ⟨rep', answered'⟩ := rep_new.run run'
  obtain ⟨final, logs⟩ := RefBook.local_stepReserved.reordered OrderBook.Call.names_some same ∅
  refine ⟨?_, rep.seenAlike (final ▸ rep')⟩
  rw [log, log, answered, answered']
  exact logs

/-- An execution moves in front of an add and a replacement of other orders. -/
theorem book_reordered_executed : SeenAlike
    (after OrderBook.step {} [.add 1#64 .buy 10#32 10000#32, .add 2#64 .sell 5#32 10100#32, .replace 2#64 3#64 4#32 10200#32,
      .reduce 1#64 3#32])
    (after OrderBook.step {} [.add 1#64 .buy 10#32 10000#32, .reduce 1#64 3#32, .add 2#64 .sell 5#32 10100#32,
      .replace 2#64 3#64 4#32 10200#32]) :=
  (book_reordered [.add 1#64 .buy 10#32 10000#32, .add 2#64 .sell 5#32 10100#32, .replace 2#64 3#64 4#32 10200#32,
      .reduce 1#64 3#32] [.add 1#64 .buy 10#32 10000#32, .reduce 1#64 3#32, .add 2#64 .sell 5#32 10100#32,
      .replace 2#64 3#64 4#32 10200#32] (by decide +kernel) (by decide +kernel) (fun ref => by
    by_cases one : ref = 1#64
    · subst one
      decide
    · simp only [naming, List.filter_cons, OrderBook.Call.Names, Ne.symm one, decide_false, Bool.false_eq_true, if_false])).2

end Nts.Book
