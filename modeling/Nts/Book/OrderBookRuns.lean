import Nts.Lib.Runs
import Nts.Book.OrderBookRep

/-!
# Whole histories of a book

`Follows.step` follows one call on the reference book, for each of the three relations;
the run theorems are its closure. What a call can do about reference 0, which the index reserves, is part of
`stepReserved`; on the calls of a sane feed it is the naive `RefBook.step`.
-/

namespace Nts.Book

/-! ## One call -/

/-- The quantity of a call fits 31 bits. -/
def OrderBook.Call.Fits : OrderBook.Call → Prop
  | .add _ _ shares _ => shares.toNat < 2 ^ 31
  | .replace _ _ shares _ => shares.toNat < 2 ^ 31
  | _ => True

instance : ∀ c : OrderBook.Call, Decidable c.Fits
  | .add .. => inferInstanceAs (Decidable (_ < _))
  | .replace .. => inferInstanceAs (Decidable (_ < _))
  | .reduce .. | .remove .. => inferInstanceAs (Decidable True)

namespace RefBook

/-- `step`, with the reserved reference 0 as the book treats it. -/
def stepReserved (m : RefBook) : OrderBook.Call → RefBook × ApplyResult
  | .add ref side shares price => if ref = 0#64 then (m, .duplicateRef) else m.step (.add ref side shares price)
  | .replace originalRef newRef shares price =>
    if newRef = 0#64 ∧ originalRef ∈ m then (m.erase originalRef, .duplicateRef)
    else m.step (.replace originalRef newRef shares price)
  | c => m.step c

/-- The quantity with which a call asks for a new order. -/
def inserted (m : RefBook) : OrderBook.Call → Option (BitVec 32)
  | .add _ _ shares _ => some shares
  | .replace originalRef newRef shares _ =>
    if originalRef ∈ m ∧ ¬ (newRef ≠ originalRef ∧ newRef ∈ m) then some shares else none
  | _ => none

theorem small_of_fits {c : OrderBook.Call} (fits : c.Fits) (m : RefBook) : ∀ shares ∈ m.inserted c, shares.toNat < 2 ^ 31 := by
  intro shares asked
  cases c with
  | add ref side q price =>
    obtain rfl : q = shares := Option.some.inj asked
    exact fits
  | replace originalRef newRef q price =>
    simp only [inserted] at asked
    split at asked
    · obtain rfl : q = shares := Option.some.inj asked
      exact fits
    · cases asked
  | reduce ref q => cases asked
  | remove ref => cases asked

/-- The call gives no order the reference 0. -/
def NoZero : OrderBook.Call → Prop
  | .add ref .. => ref ≠ 0#64
  | .replace _ newRef .. => newRef ≠ 0#64
  | _ => True

instance : ∀ c, Decidable (NoZero c)
  | .add .. => inferInstanceAs (Decidable (_ ≠ _))
  | .replace .. => inferInstanceAs (Decidable (_ ≠ _))
  | .reduce .. | .remove .. => inferInstanceAs (Decidable True)

theorem stepReserved_eq {c : OrderBook.Call} (noZero : NoZero c) (m : RefBook) : m.stepReserved c = m.step c := by
  cases c with
  | add ref side shares price => exact if_neg noZero
  | replace originalRef newRef shares price => exact if_neg fun zero => noZero zero.1
  | reduce ref shares => rfl
  | remove ref => rfl

section
variable {m : RefBook} {ref originalRef newRef : BitVec 64} {o : Resting}

theorem add_refused (refused : ref = 0#64 ∨ ref ∈ m) (side : Side) (shares price : BitVec 32) :
    m.stepReserved (.add ref side shares price) = (m, .duplicateRef) := by
  simp only [stepReserved, step]
  split
  · rfl
  · next nonzero => rw [if_pos (refused.resolve_left nonzero)]

theorem add_accepted (nonzero : ref ≠ 0#64) (absent : ref ∉ m) (side : Side) (shares price : BitVec 32) :
    m.stepReserved (.add ref side shares price) = (m.insert ref ⟨side, shares.toNat, price.toNat⟩, .applied) := by
  simp only [stepReserved, step, nonzero, absent, if_false]

theorem replace_absent (dead : originalRef ∉ m) (newRef : BitVec 64) (shares price : BitVec 32) :
    m.stepReserved (.replace originalRef newRef shares price) = (m, .unknownRef) := by
  simp only [stepReserved, step, dead, and_false, if_false, Finmap.lookup_eq_none.mpr dead]

theorem replace_taken (live : m.lookup originalRef = some o) (nonzero : newRef ≠ 0#64)
    (taken : newRef ≠ originalRef ∧ newRef ∈ m) (shares price : BitVec 32) :
    m.stepReserved (.replace originalRef newRef shares price) = (m, .duplicateRef) := by
  simp only [stepReserved, step, nonzero, false_and, if_false, live]
  rw [if_pos taken]

theorem replace_zero (member : originalRef ∈ m) (shares price : BitVec 32) :
    m.stepReserved (.replace originalRef 0#64 shares price) = (m.erase originalRef, .duplicateRef) :=
  if_pos ⟨rfl, member⟩

theorem replace_free (live : m.lookup originalRef = some o) (nonzero : newRef ≠ 0#64)
    (free : ¬ (newRef ≠ originalRef ∧ newRef ∈ m)) (shares price : BitVec 32) :
    m.stepReserved (.replace originalRef newRef shares price) =
      ((m.erase originalRef).insert newRef ⟨o.side, shares.toNat, price.toNat⟩, .applied) := by
  simp only [stepReserved, step, nonzero, false_and, if_false, live]
  rw [if_neg free]

end

end RefBook

/-- The rules of a relation between books and maps, one for each outcome of a call; `ok` is what it asks of a map that
has grown. -/
structure Follows (R : OrderBook → RefBook → Prop) (ok : RefBook → Prop) : Prop where
  indexes : ∀ {b m}, R b m → Indexes b.orders m
  addRefused : ∀ {b m ref}, R b m → (ref = 0#64 ∨ ref ∈ m) → ∀ side shares price,
    (b.add ref side shares price).2 = .duplicateRef ∧ R (b.add ref side shares price).1 m
  addAccepted : ∀ {b m ref}, R b m → ref ≠ 0#64 → ref ∉ m → ∀ side {shares}, shares.toNat < 2 ^ 31 → ∀ price,
    ok (m.insert ref ⟨side, shares.toNat, price.toNat⟩) → (b.add ref side shares price).2 = .applied ∧
      R (b.add ref side shares price).1 (m.insert ref ⟨side, shares.toNat, price.toNat⟩)
  removeLive : ∀ {b m ref o}, R b m → m.lookup ref = some o →
    (b.remove ref).2 = .applied ∧ R (b.remove ref).1 (m.erase ref)
  reduceLive : ∀ {b m ref o}, R b m → m.lookup ref = some o → ∀ shares,
    (b.reduce ref shares).2 = (if o.qty < shares.toNat then .clampedReduce else .applied) ∧ R (b.reduce ref shares).1
      (if o.qty ≤ shares.toNat then m.erase ref else m.insert ref { o with qty := o.qty - shares.toNat })

theorem follows_tracks : Follows Tracks fun _ => True where
  indexes := Tracks.indexes
  addRefused := Tracks.add_refused
  addAccepted := fun tracks nonzero absent side _ small price _ => tracks.add_accepted nonzero absent side small price
  removeLive := Tracks.remove_live
  reduceLive := Tracks.reduce_live

theorem follows_shows : Follows Shows fun m => ∀ side price, m.ordersAt side price < 2 ^ 32 where
  indexes := fun shown => shown.indexes
  addRefused := Shows.add_refused
  addAccepted := Shows.add_accepted
  removeLive := Shows.remove_live
  reduceLive := Shows.reduce_live

theorem follows_rep : Follows Rep fun m => m.liveOrders < 2 ^ 32 where
  indexes := fun rep => rep.indexes
  addRefused := by
    intro b m ref rep refused side shares price
    obtain ⟨result, shown⟩ := rep.toShows.add_refused refused side shares price
    exact ⟨result, ⟨shown, rep.few⟩⟩
  addAccepted := by
    intro b m ref rep nonzero absent side shares small price few
    obtain ⟨result, shown⟩ := rep.toShows.add_accepted nonzero absent side small price fun side' price' =>
      (RefBook.ordersAt_le _ side' price').trans_lt few
    exact ⟨result, ⟨shown, few⟩⟩
  removeLive := by
    intro b m ref o rep live
    obtain ⟨result, shown⟩ := rep.toShows.remove_live live
    have count := (RefBook.adds_erase live).liveOrders
    have few := rep.few
    exact ⟨result, ⟨shown, by omega⟩⟩
  reduceLive := by
    intro b m ref o rep live shares
    obtain ⟨result, shown⟩ := rep.toShows.reduce_live live shares
    have count := (RefBook.adds_erase live).liveOrders
    have again := (RefBook.adds_update m ref { o with qty := o.qty - shares.toNat }).liveOrders
    have few := rep.few
    refine ⟨result, ⟨shown, ?_⟩⟩
    split <;> omega

section
variable {R : OrderBook → RefBook → Prop} {ok : RefBook → Prop} {b : OrderBook} {m : RefBook}

theorem Follows.add (follows : Follows R ok) (related : R b m) (ref : BitVec 64) (side : Side) {shares : BitVec 32}
    (small : shares.toNat < 2 ^ 31) (price : BitVec 32) (room : ok (m.stepReserved (.add ref side shares price)).1) :
    R (b.add ref side shares price).1 (m.stepReserved (.add ref side shares price)).1 ∧
      (b.add ref side shares price).2 = (m.stepReserved (.add ref side shares price)).2 := by
  by_cases refused : ref = 0#64 ∨ ref ∈ m
  · rw [RefBook.add_refused refused]
    exact (follows.addRefused related refused side shares price).symm
  · obtain ⟨nonzero, absent⟩ := not_or.mp refused
    rw [RefBook.add_accepted nonzero absent] at room ⊢
    exact (follows.addAccepted related nonzero absent side small price room).symm

/-- A replacement is a removal and then an addition on the same side. -/
theorem Follows.replace (follows : Follows R ok) (related : R b m) (originalRef newRef : BitVec 64) {shares : BitVec 32}
    (price : BitVec 32) (small : shares ∈ m.inserted (.replace originalRef newRef shares price) → shares.toNat < 2 ^ 31)
    (room : ok (m.stepReserved (.replace originalRef newRef shares price)).1) :
    R (b.replace originalRef newRef shares price).1 (m.stepReserved (.replace originalRef newRef shares price)).1 ∧
      (b.replace originalRef newRef shares price).2 = (m.stepReserved (.replace originalRef newRef shares price)).2 := by
  have indexes := follows.indexes related
  cases live : m.lookup originalRef with
  | none =>
    have dead : originalRef ∉ m := Finmap.lookup_eq_none.mp live
    rw [OrderBook.replace_absent (indexes.find_absent dead), RefBook.replace_absent dead]
    exact ⟨related, rfl⟩
  | some o =>
    have member : originalRef ∈ m := Finmap.mem_of_lookup_eq_some live
    obtain ⟨i, found, reads, _⟩ := indexes.find_live live
    by_cases taken : newRef ≠ originalRef ∧ newRef ∈ m
    · have nonzero : newRef ≠ 0#64 := by
        intro zero
        exact indexes.zero_notMem (zero ▸ taken.2)
      obtain ⟨o', live'⟩ := Finmap.mem_iff.mp taken.2
      obtain ⟨j, found', _⟩ := indexes.find_live live'
      rw [OrderBook.replace_taken found ⟨taken.1, by rw [found']; rfl⟩, RefBook.replace_taken live nonzero taken]
      exact ⟨related, rfl⟩
    · have free : ¬ (newRef ≠ originalRef ∧ (b.orders.find newRef).isSome = true) := by
        rintro ⟨ne, isSome⟩
        have absent : newRef ∉ m := fun member => taken ⟨ne, member⟩
        rw [indexes.find_absent absent] at isSome
        cases isSome
      have side : (if (b.orders.orderAt i).buy = true then Side.buy else Side.sell) = o.side := by rw [← reads]; rfl
      obtain ⟨_, removed⟩ := follows.removeLive related live
      rw [OrderBook.replace_free found free, side]
      by_cases zero : newRef = 0#64
      · subst zero
        rw [RefBook.replace_zero member]
        exact (follows.addRefused removed (Or.inl rfl) o.side shares price).symm
      · have absent : newRef ∉ m.erase originalRef := by
          rw [Finmap.mem_erase]
          rintro ⟨ne, inside⟩
          exact taken ⟨ne, inside⟩
        rw [RefBook.replace_free live zero taken] at room ⊢
        exact (follows.addAccepted removed zero absent o.side (small (if_pos ⟨member, taken⟩)) price room).symm

/-- Every call is answered as the reference answers it. -/
theorem Follows.step (follows : Follows R ok) (related : R b m) (c : OrderBook.Call)
    (small : ∀ shares ∈ m.inserted c, shares.toNat < 2 ^ 31) (room : ok (m.stepReserved c).1) :
    R (b.step c).1 (m.stepReserved c).1 ∧ (b.step c).2 = (m.stepReserved c).2 := by
  have indexes := follows.indexes related
  cases c with
  | add ref side shares price => exact follows.add related ref side (small shares rfl) price room
  | reduce ref shares =>
    simp only [RefBook.stepReserved, RefBook.step, OrderBook.step]
    cases live : m.lookup ref with
    | none =>
      rw [OrderBook.reduce_absent (indexes.find_absent (Finmap.lookup_eq_none.mp live))]
      exact ⟨related, rfl⟩
    | some o =>
      obtain ⟨flag, related'⟩ := follows.reduceLive related live shares
      exact ⟨related', flag⟩
  | remove ref =>
    simp only [RefBook.stepReserved, RefBook.step, OrderBook.step]
    cases live : m.lookup ref with
    | none =>
      rw [OrderBook.remove_absent (indexes.find_absent (Finmap.lookup_eq_none.mp live))]
      exact ⟨related, rfl⟩
    | some o =>
      obtain ⟨flag, related'⟩ := follows.removeLive related live
      exact ⟨related', flag⟩
  | replace originalRef newRef shares price => exact follows.replace related originalRef newRef price (small shares) room

theorem Rep.step (rep : Rep b m) (c : OrderBook.Call) (fits : c.Fits) (few : (m.stepReserved c).1.liveOrders < 2 ^ 32) :
    Rep (b.step c).1 (m.stepReserved c).1 ∧ (b.step c).2 = (m.stepReserved c).2 :=
  follows_rep.step rep c (RefBook.small_of_fits fits m) few

end

/-! ## What the book shows -/

/-- Price, shares and orders of a level, in unbounded numbers. -/
def Level.values (l : Level) : Nat × Nat × Nat := (l.price.toNat, l.shares.toNat, l.orders.toNat)

section
variable {b : OrderBook} {m : RefBook}

theorem Indexes.sharesOf (indexes : Indexes b.orders m) (ref : BitVec 64) : (b.sharesOf ref).toNat = m.sharesOf ref := by
  unfold OrderBook.sharesOf RefBook.sharesOf
  cases live : m.lookup ref with
  | none =>
    have miss := indexes.find_absent (Finmap.lookup_eq_none.mp live)
    simp only [miss]
    rfl
  | some o =>
    obtain ⟨i, found, reads, _⟩ := indexes.find_live live
    simp only [found]
    rw [← reads]
    rfl

/-- All resting shares together stay below 2^63. -/
theorem Rep.shares_lt (rep : Rep b m) : m.restingShares < 2 ^ 63 := by
  have bound : m.total Resting.qty ≤ 2 ^ 31 * m.keys.card := Finmap.total_le fun ref o live =>
    (rep.indexes.qty_lt live).le
  have few := rep.few
  change m.total Resting.qty < 2 ^ 63
  change m.keys.card < 2 ^ 32 at few
  omega

theorem Rep.restingShares (rep : Rep b m) : b.restingShares.toNat = m.restingShares := by
  have small := rep.shares_lt
  rw [OrderBook.restingShares, rep.orderShares, BitVec.toNat_ofNat, Nat.mod_eq_of_lt (by omega)]

/-- The orders of one level together have fewer than 2^63 shares. -/
theorem Shows.sharesAt_lt (shown : Shows b m) (side : Side) (price : Nat) : m.sharesAt side price < 2 ^ 63 := by
  have counted := shown.counted side price
  have bound : m.sharesAt side price ≤ 2 ^ 31 * m.ordersAt side price := by
    rw [RefBook.sharesAt, RefBook.ordersAt, Finmap.total, Finmap.total, ← Multiset.sum_map_mul_left]
    apply Multiset.sum_map_le_sum_map
    intro e member
    have small := shown.indexes.qty_lt (Finmap.mem_entries_iff.mp member)
    split <;> omega
  omega

/-- The level a ladder stores at a price, in numbers. -/
theorem Shows.level_values (shown : Shows b m) {buy : Bool} {l : Level} (stored : (b.ladder buy).level? l.price = some l) :
    m.ordersAt (sideOf buy) l.price.toNat ≠ 0 ∧ l.shares.toNat = m.sharesAt (sideOf buy) l.price.toNat ∧
      l.orders.toNat = m.ordersAt (sideOf buy) l.price.toNat := by
  have small := shown.sharesAt_lt (sideOf buy) l.price.toNat
  have counted := shown.counted (sideOf buy) l.price.toNat
  rw [(shown.ladder buy).level, levelOf] at stored
  split at stored
  · cases stored
  · next peopled =>
    have eq := Option.some.inj stored
    refine ⟨peopled, ?_, ?_⟩
    · rw [← congrArg Level.shares eq, BitVec.toNat_ofNat, Nat.mod_eq_of_lt (by omega)]
    · rw [← congrArg Level.orders eq, BitVec.toNat_ofNat, Nat.mod_eq_of_lt (by omega)]

/-- A price with orders has a level. -/
theorem Shows.exists_level (shown : Shows b m) {buy : Bool} {price : Nat} (peopled : m.ordersAt (sideOf buy) price ≠ 0) :
    ∃ l, (b.ladder buy).level? l.price = .some l ∧ l.price.toNat = price := by
  obtain ⟨ref, o, live, side, rfl⟩ := RefBook.exists_of_ordersAt peopled
  obtain ⟨_, _, reads, _⟩ := shown.indexes.find_live live
  obtain ⟨p, price⟩ : ∃ p : BitVec 32, p.toNat = o.price := ⟨_, congrArg Resting.price reads⟩
  refine ⟨⟨p, .ofNat 64 (m.sharesAt (sideOf buy) p.toNat), .ofNat 32 (m.ordersAt (sideOf buy) p.toNat)⟩, ?_, price⟩
  rw [(shown.ladder buy).level, levelOf, if_neg (by rw [price]; exact peopled)]

/-- The best level of a ladder is the reference's best level. -/
theorem Rep.best (rep : Rep b m) (buy : Bool) : (b.ladder buy).best.map Level.values = m.best (sideOf buy) := by
  have spec := (rep.ladder buy).inv.best_spec
  have sided := (rep.ladder buy).sided
  cases found : (b.ladder buy).best with
  | none =>
    rw [found] at spec
    have noPrices : m.prices (sideOf buy) = ∅ := by
      apply Finset.eq_empty_of_forall_notMem
      intro price member
      obtain ⟨l, stored, _⟩ := rep.toShows.exists_level (RefBook.mem_prices.mp member)
      rw [spec] at stored
      cases stored
    have noBest : m.bestPrice (sideOf buy) = none := by
      cases buy with
      | true => exact Finset.max_eq_bot.mpr noPrices
      | false => exact Finset.min_eq_top.mpr noPrices
    rw [RefBook.best, noBest]
    rfl
  | some l =>
    rw [found] at spec
    obtain ⟨stored, first⟩ := spec
    obtain ⟨peopled, shares, orders⟩ := rep.toShows.level_values stored
    have member := RefBook.mem_prices.mpr peopled
    have bestPrice : m.bestPrice (sideOf buy) = .some l.price.toNat := by
      have others : ∀ price ∈ m.prices (sideOf buy), price = l.price.toNat ∨ ∃ p : BitVec 32, p.toNat = price ∧
          (b.ladder buy).better l.price p := by
        intro price inside
        obtain ⟨l', stored', price'⟩ := rep.toShows.exists_level (RefBook.mem_prices.mp inside)
        rcases first l'.price l' stored' with eq | later
        · exact Or.inl (by rw [← price', eq])
        · exact Or.inr ⟨l'.price, price', later⟩
      cases buy with
      | true =>
        have highest : (m.prices .buy).max = (l.price.toNat : WithBot Nat) := by
          apply le_antisymm _ (Finset.le_max member)
          apply Finset.max_le
          intro price inside
          rcases others price inside with rfl | ⟨p, rfl, later⟩
          · exact le_refl _
          · simp only [PriceLevels.better, sided, sideOf, decide_eq_true_eq, if_true, gt_iff_lt, BitVec.lt_def] at later
            exact WithBot.coe_le_coe.mpr later.le
        exact highest
      | false =>
        have lowest : (m.prices .sell).min = (l.price.toNat : WithTop Nat) := by
          apply le_antisymm (Finset.min_le member)
          apply Finset.le_min
          intro price inside
          rcases others price inside with rfl | ⟨p, rfl, later⟩
          · exact le_refl _
          · simp only [PriceLevels.better, sided, sideOf, decide_eq_true_eq, if_false, Bool.false_eq_true,
              BitVec.lt_def] at later
            exact WithTop.coe_le_coe.mpr later.le
        exact lowest
    rw [RefBook.best, bestPrice, Option.map_some, Option.map_some, Level.values, shares, orders]

end

/-! ## The naive reference model -/

/-- The calls of a feed that numbers its orders from 1, with quantities of 31 bits, and fewer than 2^32 live orders. -/
def RefBook.Admits (m : RefBook) (c : OrderBook.Call) : Prop :=
  RefBook.NoZero c ∧ c.Fits ∧ (m.step c).1.liveOrders < 2 ^ 32

instance (m : RefBook) (c : OrderBook.Call) : Decidable (m.Admits c) :=
  inferInstanceAs (Decidable (_ ∧ _ ∧ _ < _))

/-- **A book is the naive reference model.** After every such history: every call was
answered as the reference answers it, and quantities, order count, resting
shares and both best levels are those recomputed from the reference's map. -/
theorem book_refines_reference (cs : List OrderBook.Call) (run : Runs.Admitted RefBook.step RefBook.Admits ∅ cs) :
    Runs.answers OrderBook.step {} cs = Runs.answers RefBook.step ∅ cs ∧
    (∀ ref, ((Runs.after OrderBook.step {} cs).sharesOf ref).toNat = (Runs.after RefBook.step ∅ cs).sharesOf ref) ∧
    (Runs.after OrderBook.step {} cs).liveOrders = (Runs.after RefBook.step ∅ cs).liveOrders ∧
    (Runs.after OrderBook.step {} cs).restingShares.toNat = (Runs.after RefBook.step ∅ cs).restingShares ∧
    (Runs.after OrderBook.step {} cs).bestBid.map Level.values = (Runs.after RefBook.step ∅ cs).best .buy ∧
    (Runs.after OrderBook.step {} cs).bestAsk.map Level.values = (Runs.after RefBook.step ∅ cs).best .sell := by
  have matched : ∀ (b : OrderBook) (m : RefBook) c, Rep b m → m.Admits c →
      Rep (b.step c).1 (m.step c).1 ∧ (b.step c).2 = (m.step c).2 := by
    intro b m c rep ⟨noZero, fits, few⟩
    rw [← RefBook.stepReserved_eq noZero] at few ⊢
    exact rep.step c fits few
  obtain ⟨rep, answers⟩ := Runs.simulation matched rep_new run
  exact ⟨answers, rep.indexes.sharesOf, rep.indexes.size, rep.restingShares, rep.best true, rep.best false⟩

/-- A duplicate, a clamped reduction, a replacement by itself and one by another reference. -/
theorem book_refines_reference_run : Runs.answers OrderBook.step {} [.add 1#64 .buy 10#32 10000#32,
      .add 1#64 .sell 5#32 10000#32, .replace 1#64 1#64 7#32 10100#32, .reduce 1#64 9#32, .add 2#64 .sell 3#32 20001#32,
      .replace 2#64 3#64 4#32 20000#32] =
    [.applied, .duplicateRef, .applied, .clampedReduce, .applied, .applied] :=
  (book_refines_reference [.add 1#64 .buy 10#32 10000#32, .add 1#64 .sell 5#32 10000#32,
    .replace 1#64 1#64 7#32 10100#32, .reduce 1#64 9#32, .add 2#64 .sell 3#32 20001#32,
    .replace 2#64 3#64 4#32 20000#32] (by decide +kernel)).1.trans (by decide +kernel)

end Nts.Book
