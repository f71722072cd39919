import Nts.Book.OrderBookRuns

/-!
# Refused calls

What a call can do to a book it refuses, for every reachable book, however many
orders live in it. Only the index matters here: a refused call never reaches a ladder, with one
exception.
-/

namespace Nts.Book

/-- The book shows after a call what it showed before: the live orders, both listings and the totals. -/
def OrderBook.LeftAlone (b b' : OrderBook) : Prop :=
  (∀ e, e ∈ b'.orders.entries ↔ e ∈ b.orders.entries) ∧ b'.bids.levels = b.bids.levels ∧ b'.asks.levels = b.asks.levels ∧
    b'.restingShares = b.restingShares ∧ b'.liveOrders = b.liveOrders

/-- The call replaces a live order by one with the reserved reference 0. -/
def OrderBook.ReplacesByZero (b : OrderBook) (c : OrderBook.Call) : Prop :=
  ∃ originalRef shares price, c = .replace originalRef 0#64 shares price ∧ (b.orders.find originalRef).isSome

namespace OrderBook
variable {b : OrderBook} {om : OrderIndex.OrderMap}

theorem leftAlone_refl (b : OrderBook) : b.LeftAlone b := ⟨fun _ => Iff.rfl, rfl, rfl, rfl, rfl⟩

/-- Only the representation of the index may differ. -/
theorem leftAlone_of_index {b' : OrderBook} (rep : OrderIndex.Rep b.orders om) (rep' : OrderIndex.Rep b'.orders om)
    (bids : b'.bids = b.bids) (asks : b'.asks = b.asks) (shares : b'.orderShares = b.orderShares) : b.LeftAlone b' := by
  refine ⟨fun e => ?_, by rw [bids], by rw [asks], shares, ?_⟩
  · exact (rep'.same e.1 e.2).trans (rep.same e.1 e.2).symm
  · rw [liveOrders, liveOrders, rep'.size, rep.size]

/-- What `add` does to the index and what it answers. -/
theorem add_index (rep : OrderIndex.Rep b.orders om) (ref : BitVec 64) (side : Side) (shares price : BitVec 32) :
    (ref = 0#64 ∨ ref ∈ om) ∧ (b.add ref side shares price).2 = .duplicateRef ∧ b.LeftAlone (b.add ref side shares price).1 ∧
      OrderIndex.Rep (b.add ref side shares price).1.orders om ∨
    ¬ (ref = 0#64 ∨ ref ∈ om) ∧ (b.add ref side shares price).2 = .applied ∧
      ∃ om', OrderIndex.Rep (b.add ref side shares price).1.orders om' := by
  unfold add
  by_cases refused : ref = 0#64 ∨ ref ∈ om
  · obtain ⟨flag, rep'⟩ := rep.insert_refused refused shares price (side == .buy)
    simp only [flag, Bool.not_false, if_true]
    exact Or.inl ⟨refused, trivial, leftAlone_of_index rep rep' rfl rfl rfl, rep'⟩
  · obtain ⟨nonzero, absent⟩ := not_or.mp refused
    obtain ⟨flag, rep'⟩ := rep.insert_accepted nonzero absent shares price (side == .buy)
    simp only [flag, Bool.not_true, Bool.false_eq_true, if_false, updateLadder_orders]
    exact Or.inr ⟨refused, trivial, _, rep'⟩

/-- `reduce` of a live order changes or deletes its entry and is never refused. -/
theorem reduce_index (rep : OrderIndex.Rep b.orders om) {ref : BitVec 64} {i : Nat} (found : b.orders.find ref = some i)
    (shares : BitVec 32) : ((b.reduce ref shares).2 = .applied ∨ (b.reduce ref shares).2 = .clampedReduce) ∧
      ∃ om', OrderIndex.Rep (b.reduce ref shares).1.orders om' := by
  have live := rep.lookup_of_find found
  unfold reduce
  simp only [found]
  refine ⟨by split <;> simp, ?_⟩
  generalize (if decide (shares > (b.orders.orderAt i).qty) = true then (b.orders.orderAt i).qty else shares) = reduceBy
  by_cases dies : (b.orders.orderAt i).qty - reduceBy = 0#32
  · simp only [dies, decide_true, if_true, updateLadder_orders]
    exact ⟨_, ((rep.setShares live found _).erase_live (Finmap.lookup_insert _)).2⟩
  · simp only [dies, decide_false, Bool.false_eq_true, if_false, updateLadder_orders]
    exact ⟨_, rep.setShares live found _⟩

/-- `remove` of a live order deletes its entry. -/
theorem remove_index (rep : OrderIndex.Rep b.orders om) {ref : BitVec 64} {i : Nat} (found : b.orders.find ref = some i) :
    (b.remove ref).2 = .applied ∧ OrderIndex.Rep (b.remove ref).1.orders (om.erase ref) := by
  have live := rep.lookup_of_find found
  unfold remove
  simp only [found, updateLadder_orders]
  exact ⟨trivial, (rep.erase_live live).2⟩

/-- `replace`: refused before anything is touched, carried through, or refused by
the nested `add` after the original is gone; the last only for the reference 0. -/
theorem replace_index (rep : OrderIndex.Rep b.orders om) (originalRef newRef : BitVec 64) (shares price : BitVec 32) :
    ((b.replace originalRef newRef shares price).1 = b ∧ ¬ b.ReplacesByZero (.replace originalRef newRef shares price)) ∨
    ((b.replace originalRef newRef shares price).2 = .applied ∧
      (∃ om', OrderIndex.Rep (b.replace originalRef newRef shares price).1.orders om') ∧
      ¬ b.ReplacesByZero (.replace originalRef newRef shares price)) ∨
    ((b.replace originalRef newRef shares price).2 = .duplicateRef ∧
      OrderIndex.Rep (b.replace originalRef newRef shares price).1.orders (om.erase originalRef) ∧ originalRef ∈ om ∧
      b.ReplacesByZero (.replace originalRef newRef shares price)) := by
  cases found : b.orders.find originalRef with
  | none =>
    left
    refine ⟨by simp only [replace, found], ?_⟩
    rintro ⟨ref, _, _, same, stays⟩
    cases same
    rw [found] at stays
    cases stays
  | some i =>
    have live := rep.lookup_of_find found
    by_cases collision : newRef ≠ originalRef ∧ (b.orders.find newRef).isSome = true
    · left
      refine ⟨by simp only [replace, found]; rw [if_pos collision], ?_⟩
      rintro ⟨ref, _, _, same, _⟩
      cases same
      rw [rep.find_absent rep.zero_notMem] at collision
      cases collision.2
    · right
      obtain ⟨flag, removed⟩ := remove_index rep found
      have shape : b.replace originalRef newRef shares price = (b.remove originalRef).1.add newRef
          (if (b.orders.orderAt i).buy = true then .buy else .sell) shares price := by
        simp only [replace, found, collision, if_false, flag, ne_eq, not_true_eq_false]
      rw [shape]
      rcases add_index removed newRef (if (b.orders.orderAt i).buy = true then .buy else .sell) shares price with
        ⟨refused, answer, _, rep'⟩ | ⟨accepted, answer, rep'⟩
      · right
        have zero : newRef = 0#64 := by
          apply refused.resolve_right
          intro inside
          obtain ⟨ne, member⟩ := Finmap.mem_erase.mp inside
          obtain ⟨o', live'⟩ := Finmap.mem_iff.mp member
          obtain ⟨j, found', _⟩ := rep.find_live live'
          exact collision ⟨ne, by rw [found']; rfl⟩
        subst zero
        exact ⟨answer, rep', Finmap.mem_of_lookup_eq_some live, originalRef, shares, price, rfl, by rw [found]; rfl⟩
      · left
        refine ⟨answer, rep', ?_⟩
        rintro ⟨_, _, _, same, _⟩
        cases same
        exact accepted (Or.inl rfl)

/-- A refused call leaves the book alone exactly when it does not replace by 0. -/
theorem refused_iff (rep : OrderIndex.Rep b.orders om) (c : Call) :
    (∃ om', OrderIndex.Rep (b.step c).1.orders om') ∧
      ((((b.step c).2 = .unknownRef ∨ (b.step c).2 = .duplicateRef) → b.LeftAlone (b.step c).1) ↔ ¬ b.ReplacesByZero c) := by
  have notReplace : (∀ originalRef newRef shares price, c ≠ .replace originalRef newRef shares price) →
      ¬ b.ReplacesByZero c := by
    rintro other ⟨originalRef, shares, price, same, _⟩
    exact other _ _ _ _ same
  have unknown : (b.step c).1 = b → ¬ b.ReplacesByZero c → (∃ om', OrderIndex.Rep (b.step c).1.orders om') ∧
      ((((b.step c).2 = .unknownRef ∨ (b.step c).2 = .duplicateRef) → b.LeftAlone (b.step c).1) ↔ ¬ b.ReplacesByZero c) := by
    intro same other
    rw [same]
    exact ⟨⟨om, rep⟩, iff_of_true (fun _ => leftAlone_refl b) other⟩
  have answered : ∀ {r : ApplyResult}, (b.step c).2 = r → r = .applied ∨ r = .clampedReduce →
      (∃ om', OrderIndex.Rep (b.step c).1.orders om') → ¬ b.ReplacesByZero c → (∃ om', OrderIndex.Rep (b.step c).1.orders om') ∧
      ((((b.step c).2 = .unknownRef ∨ (b.step c).2 = .duplicateRef) → b.LeftAlone (b.step c).1) ↔ ¬ b.ReplacesByZero c) := by
    rintro r answer done rep' other
    refine ⟨rep', iff_of_true (fun refused => ?_) other⟩
    rw [answer] at refused
    rcases done with rfl | rfl <;> rcases refused with wrong | wrong <;> cases wrong
  cases c with
  | add ref side shares price =>
    rcases add_index rep ref side shares price with ⟨_, answer, alone, rep'⟩ | ⟨_, answer, rep'⟩
    · exact ⟨⟨om, rep'⟩, iff_of_true (fun _ => alone) (notReplace fun _ _ _ _ same => by cases same)⟩
    · exact answered answer (Or.inl rfl) rep' (notReplace fun _ _ _ _ same => by cases same)
  | reduce ref shares =>
    cases found : b.orders.find ref with
    | none => exact unknown (by simp only [step, reduce, found]) (notReplace fun _ _ _ _ same => by cases same)
    | some i =>
      obtain ⟨answer, rep'⟩ := reduce_index rep found shares
      exact answered rfl answer rep' (notReplace fun _ _ _ _ same => by cases same)
  | remove ref =>
    cases found : b.orders.find ref with
    | none => exact unknown (by simp only [step, remove, found]) (notReplace fun _ _ _ _ same => by cases same)
    | some i =>
      obtain ⟨answer, rep'⟩ := remove_index rep found
      exact answered answer (Or.inl rfl) ⟨_, rep'⟩ (notReplace fun _ _ _ _ same => by cases same)
  | replace originalRef newRef shares price =>
    rcases replace_index rep originalRef newRef shares price with ⟨same, other⟩ | ⟨answer, rep', other⟩ |
      ⟨answer, rep', member, byZero⟩
    · exact unknown same other
    · exact answered answer (Or.inl rfl) rep' other
    · refine ⟨⟨_, rep'⟩, iff_of_false (fun alone => ?_) (not_not.mpr byZero)⟩
      -- the original is gone from the index
      obtain ⟨o, live⟩ := Finmap.mem_iff.mp member
      have still := ((alone (Or.inr answer)).1 (originalRef, o)).mpr ((rep.same _ _).mpr live)
      have gone := (rep'.same _ _).mp still
      rw [Finmap.lookup_erase] at gone
      cases gone

end OrderBook

/-- **Refused calls** on a reachable book: an `UnknownRef` or `DuplicateRef` answer
leaves the book alone, except that a live order replaced by the reference 0 is lost. -/
theorem refused_leaves_alone_iff (cs : List OrderBook.Call) (c : OrderBook.Call) :
    ((((Runs.after OrderBook.step {} cs).step c).2 = .unknownRef ∨ ((Runs.after OrderBook.step {} cs).step c).2 = .duplicateRef) →
      (Runs.after OrderBook.step {} cs).LeftAlone ((Runs.after OrderBook.step {} cs).step c).1) ↔
    ¬ (Runs.after OrderBook.step {} cs).ReplacesByZero c := by
  obtain ⟨om, rep⟩ : ∃ om, OrderIndex.Rep (Runs.after OrderBook.step {} cs).orders om := by
    have run : Runs.Admitted OrderBook.step (fun _ _ => True) {} cs := Runs.admitted_of_forall fun _ _ => trivial
    refine Runs.invariant (fun b : OrderBook => ∃ om, OrderIndex.Rep b.orders om) ?_ ⟨∅, OrderIndex.rep_new⟩ run
    rintro b c ⟨om, rep⟩ _
    exact (OrderBook.refused_iff rep c).1
  exact (OrderBook.refused_iff rep c).2

/-- The order replaced by the reference 0 is deleted and the call is refused. -/
theorem refused_replace_deletes : ¬ ∀ (cs : List OrderBook.Call) (c : OrderBook.Call), c.Fits →
    (((Runs.after OrderBook.step {} cs).step c).2 = .unknownRef ∨ ((Runs.after OrderBook.step {} cs).step c).2 = .duplicateRef) →
      (Runs.after OrderBook.step {} cs).LeftAlone ((Runs.after OrderBook.step {} cs).step c).1 := by
  intro all
  have alone := all [.add 1#64 .buy 10#32 10000#32] (.replace 1#64 0#64 5#32 10000#32) (by decide) (by decide +kernel)
  exact absurd alone.2.2.2.2 (by decide +kernel)

end Nts.Book
