import Nts.Book.OrderBookRuns

/-!
# The three copies of a quantity

A book keeps every quantity in the index, in a ladder and in its totals. On
every reachable book the listings are the aggregation of what `for_each` visits,
the totals are its sums, and so no unsigned subtraction can wrap.
-/

namespace Nts.Book

namespace OrderBook

/-- The live orders of one side at a price, as `for_each` visits them. -/
def liveAt (b : OrderBook) (buy : Bool) (price : BitVec 32) : List (BitVec 64 × Order) :=
  b.orders.entries.filter fun e => e.2.buy == buy && e.2.price == price

/-- The sum of the quantities of some orders. -/
def quantity (orders : List (BitVec 64 × Order)) : Nat := (orders.map fun e => e.2.qty.toNat).sum

/-- The call's quantity fits, and fewer than 2^32 orders are live after it. -/
def Admits (b : OrderBook) (c : Call) : Prop := c.Fits ∧ (b.step c).1.liveOrders < 2 ^ 32

instance (b : OrderBook) (c : Call) : Decidable (b.Admits c) := inferInstanceAs (Decidable (_ ∧ _ < _))

/-- `p` is strictly better than `q` on a side. -/
def Better (buy : Bool) (p q : BitVec 32) : Prop := if buy then p > q else p < q

/-- The levels of one side are the aggregation of its live orders, best first. -/
structure Aggregates (b : OrderBook) (buy : Bool) : Prop where
  sorted : (b.ladder buy).levels.Pairwise fun l l' => Better buy l.price l'.price
  prices : ∀ price, (∃ l ∈ (b.ladder buy).levels, l.price = price) ↔ b.liveAt buy price ≠ []
  sums : ∀ l ∈ (b.ladder buy).levels,
    l.shares.toNat = quantity (b.liveAt buy l.price) ∧ l.orders.toNat = (b.liveAt buy l.price).length

end OrderBook

/-- Summing where a test holds is summing what passes it. -/
theorem sum_filter {α : Type} (test : α → Bool) (f : α → Nat) (l : List α) :
    ((l.filter test).map f).sum = (l.map fun a => if test a then f a else 0).sum := by
  induction l with
  | nil => rfl
  | cons a l ih =>
    cases passes : test a with
    | true => simp [passes, ih]
    | false => simp [passes, ih]

section
variable {b : OrderBook} {m : RefBook}

theorem restingOf_at (o : Order) (buy : Bool) (price : BitVec 32) :
    ((restingOf o).side = sideOf buy ∧ (restingOf o).price = price.toNat) ↔ (o.buy == buy && o.price == price) = true := by
  rw [Bool.and_eq_true, beq_iff_eq, beq_iff_eq, ← BitVec.toNat_inj]
  exact and_congr_left' ⟨sideOf_injective, congrArg sideOf⟩

theorem Indexes.sharesAt (indexes : Indexes b.orders m) (buy : Bool) (price : BitVec 32) :
    m.sharesAt (sideOf buy) price.toNat = OrderBook.quantity (b.liveAt buy price) := by
  obtain ⟨nodup, same⟩ := indexes.enumerates
  rw [RefBook.sharesAt, Finmap.total_of_list nodup same, OrderBook.quantity, OrderBook.liveAt, sum_filter, List.map_map]
  congr 1
  apply List.map_congr_left
  intro e _
  exact if_congr (restingOf_at e.2 buy price) rfl rfl

/-- A list that reads as the map counts its orders. -/
theorem RefBook.ordersAt_of_list {entries : List (BitVec 64 × Order)}
    (nodup : ((entries.map fun e => (e.1, restingOf e.2)).map Prod.fst).Nodup)
    (same : ∀ ref o, (ref, o) ∈ (entries.map fun e => (e.1, restingOf e.2)) ↔ m.lookup ref = some o)
    (buy : Bool) (price : BitVec 32) : m.ordersAt (sideOf buy) price.toNat =
      (entries.filter fun e => e.2.buy == buy && e.2.price == price).length := by
  have ones : ∀ l : List (BitVec 64 × Order), l.length = (l.map fun _ => 1).sum := by simp
  rw [RefBook.ordersAt, Finmap.total_of_list nodup same, ones, sum_filter, List.map_map]
  congr 1
  apply List.map_congr_left
  intro e _
  exact if_congr (restingOf_at e.2 buy price) rfl rfl

theorem Indexes.ordersAt (indexes : Indexes b.orders m) (buy : Bool) (price : BitVec 32) :
    m.ordersAt (sideOf buy) price.toNat = (b.liveAt buy price).length :=
  RefBook.ordersAt_of_list indexes.enumerates.1 indexes.enumerates.2 buy price

theorem Indexes.quantity (indexes : Indexes b.orders m) : m.restingShares = OrderBook.quantity b.orders.entries := by
  obtain ⟨nodup, same⟩ := indexes.enumerates
  rw [RefBook.restingShares, Finmap.total_of_list nodup same, OrderBook.quantity, List.map_map]
  rfl

theorem Indexes.entries_length (indexes : Indexes b.orders m) : m.liveOrders = b.orders.entries.length := by
  obtain ⟨nodup, same⟩ := indexes.enumerates
  rw [RefBook.liveOrders, Finmap.card_keys_of_list nodup same, List.length_map]

theorem Shows.aggregates (shown : Shows b m) (buy : Bool) : b.Aggregates buy := by
  have inv := (shown.ladder buy).inv
  have sided := (shown.ladder buy).sided
  refine ⟨?_, ?_, ?_⟩
  · apply inv.levels_sorted.imp
    intro l l' better
    cases buy <;> simpa [PriceLevels.better, sided, sideOf, OrderBook.Better] using better
  · intro price
    rw [← List.length_pos_iff, ← shown.indexes.ordersAt]
    constructor
    · rintro ⟨l, member, rfl⟩
      obtain ⟨peopled, _⟩ := shown.level_values ((inv.mem_levels l).mp member)
      omega
    · intro positive
      obtain ⟨l, stored, same⟩ := shown.exists_level (Nat.ne_of_gt positive)
      exact ⟨l, (inv.mem_levels l).mpr stored, BitVec.eq_of_toNat_eq same⟩
  · intro l member
    obtain ⟨_, shares, orders⟩ := shown.level_values ((inv.mem_levels l).mp member)
    rw [shares, orders, shown.indexes.sharesAt, shown.indexes.ordersAt]
    exact ⟨rfl, rfl⟩

/-- A level that gives up an order or part of it has it to give. -/
theorem Rep.level_gives (rep : Rep b m) {ref : BitVec 64} {o : Resting} (live : m.lookup ref = some o) (buy : Bool)
    (side : o.side = sideOf buy) (price shares : BitVec 32) (at_ : o.price = price.toNat) (part : shares.toNat ≤ o.qty) :
    (∀ sub ∈ (b.ladder buy).reduceSubs price shares, sub.2 ≤ sub.1) ∧
      ∀ sub ∈ (b.ladder buy).removeSubs price shares, sub.2 ≤ sub.1 := by
  have inv := (rep.ladder buy).inv
  have enough := RefBook.qty_le_sharesAt live
  have counted := RefBook.one_le_ordersAt live
  rw [side, at_] at enough counted
  have holds : ∀ l, (b.ladder buy).level? price = some l → shares.toNat ≤ l.shares.toNat ∧ 1 ≤ l.orders.toNat := by
    intro l stored
    obtain ⟨rfl, _⟩ := inv.level?_valid stored
    obtain ⟨_, sharesEq, ordersEq⟩ := rep.toShows.level_values stored
    omega
  have stored : ∃ l, (b.ladder buy).level? price = some l := by
    rw [(rep.ladder buy).level, levelOf, if_neg (by omega)]
    exact ⟨_, rfl⟩
  obtain ⟨l, stored⟩ := stored
  obtain ⟨sharesFit, ordersFit⟩ := holds l stored
  unfold PriceLevels.reduceSubs PriceLevels.removeSubs
  cases cell : (b.ladder buy).cellOf price with
  | some i =>
    obtain ⟨_, rfl⟩ := PriceLevels.occupied_of_level? cell stored
    simp [sharesFit, ordersFit]
  | none =>
    rw [PriceLevels.level?_far cell] at stored
    simp [stored, sharesFit, ordersFit]

/-- No subtraction of a call wraps. -/
theorem Rep.stepSubs (rep : Rep b m) (c : OrderBook.Call) : ∀ sub ∈ b.stepSubs c, sub.2 ≤ sub.1 := by
  have shares := rep.restingShares
  have small := rep.shares_lt
  have few := rep.few
  have totals : b.orderShares.toNat = m.restingShares ∧ b.levelShares.toNat = m.restingShares ∧
      b.levelOrders.toNat = m.liveOrders := by
    rw [rep.orderShares, rep.levelShares, rep.levelOrders]
    simp only [BitVec.toNat_ofNat]
    omega
  obtain ⟨orderShares, levelShares, levelOrders⟩ := totals
  have removal : ∀ ref, ∀ sub ∈ b.removeSubs ref, sub.2 ≤ sub.1 := by
    intro ref sub member
    cases live : m.lookup ref with
    | none => simp [OrderBook.removeSubs, rep.find_absent live] at member
    | some o =>
      obtain ⟨i, found, reads, _⟩ := rep.indexes.find_live live
      have part := RefBook.qty_le_restingShares live
      have one := RefBook.one_le_liveOrders live
      have qty : o.qty = (b.orders.orderAt i).qty.toNat := by rw [← reads]; rfl
      have gives := (rep.level_gives live (b.orders.orderAt i).buy (by rw [← reads]; rfl) (b.orders.orderAt i).price
        (b.orders.orderAt i).qty (by rw [← reads]; rfl) qty.ge).2
      simp only [OrderBook.removeSubs, found, List.mem_append, List.mem_cons, List.not_mem_nil, or_false] at member
      rcases member with (rfl | inLadder) | rfl | rfl
      · dsimp only
        omega
      · exact gives sub inLadder
      · dsimp only
        omega
      · dsimp only
        omega
  cases c with
  | add ref side qty price =>
    intro sub member
    cases member
  | remove ref => exact removal ref
  | replace originalRef newRef qty price =>
    intro sub member
    simp only [OrderBook.stepSubs, OrderBook.replaceSubs] at member
    split at member
    · cases member
    · split at member
      · cases member
      · exact removal originalRef sub member
  | reduce ref shares =>
    intro sub member
    cases live : m.lookup ref with
    | none => simp [OrderBook.stepSubs, OrderBook.reduceSubs, rep.find_absent live] at member
    | some o =>
      obtain ⟨i, found, reads, _⟩ := rep.indexes.find_live live
      have part := RefBook.qty_le_restingShares live
      have one := RefBook.one_le_liveOrders live
      have qty : o.qty = (b.orders.orderAt i).qty.toNat := by rw [← reads]; rfl
      obtain ⟨taken, _⟩ := OrderBook.reduceBy_toNat (b.orders.orderAt i).qty shares
      simp only [decide_eq_true_eq] at taken
      simp only [OrderBook.stepSubs, OrderBook.reduceSubs, found] at member
      generalize (if shares > (b.orders.orderAt i).qty then (b.orders.orderAt i).qty else shares) = reduceBy
        at taken member
      obtain ⟨reduces, removes⟩ := rep.level_gives live (b.orders.orderAt i).buy (by rw [← reads]; rfl)
        (b.orders.orderAt i).price reduceBy (by rw [← reads]; rfl) (by omega)
      rw [List.mem_append, List.mem_append, List.mem_singleton, List.mem_singleton] at member
      rcases member with (rfl | inLadder) | rfl
      · dsimp only
        omega
      · split at inLadder
        · rw [List.mem_append, List.mem_singleton] at inLadder
          rcases inLadder with inLadder | rfl
          · exact removes sub inLadder
          · dsimp only
            omega
        · exact reduces sub inLadder
      · dsimp only
        omega

end

/-- Only `add` makes a book larger. -/
theorem RefBook.liveOrders_step (m : RefBook) (c : OrderBook.Call) :
    (∃ ref side shares price, c = .add ref side shares price) ∨ (m.stepReserved c).1.liveOrders ≤ m.liveOrders := by
  cases c with
  | add ref side shares price => exact Or.inl ⟨ref, side, shares, price, rfl⟩
  | reduce ref shares =>
    right
    simp only [RefBook.stepReserved, RefBook.step]
    cases live : m.lookup ref with
    | none => exact le_refl _
    | some o =>
      have fewer := (RefBook.adds_erase live).liveOrders
      have again := (RefBook.adds_update m ref { o with qty := o.qty - shares.toNat }).liveOrders
      dsimp only
      split <;> omega
  | remove ref =>
    right
    simp only [RefBook.stepReserved, RefBook.step]
    cases live : m.lookup ref with
    | none => exact le_refl _
    | some o =>
      have fewer := (RefBook.adds_erase live).liveOrders
      dsimp only
      omega
  | replace originalRef newRef shares price =>
    right
    simp only [RefBook.stepReserved, RefBook.step]
    cases live : m.lookup originalRef with
    | none => simp [Finmap.lookup_eq_none.mp live]
    | some o =>
      have fewer := (RefBook.adds_erase live).liveOrders
      split
      · dsimp only
        omega
      · dsimp only
        split
        · exact le_refl _
        · next free =>
          have absent : newRef ∉ m.erase originalRef := by
            rw [Finmap.mem_erase]
            exact fun member => free member
          have again := (RefBook.adds_insert absent ⟨o.side, shares.toNat, price.toNat⟩).liveOrders
          dsimp only
          omega

/-- The bound on live orders, read off the book, bounds the reference. -/
theorem Rep.few_step {b : OrderBook} {m : RefBook} (rep : Rep b m) {c : OrderBook.Call} (fits : c.Fits)
    (few : (b.step c).1.liveOrders < 2 ^ 32) : (m.stepReserved c).1.liveOrders < 2 ^ 32 := by
  rcases m.liveOrders_step c with ⟨ref, side, shares, price, rfl⟩ | less
  · simp only [RefBook.stepReserved, RefBook.step]
    split
    · exact rep.few
    · next nonzero =>
      split
      · exact rep.few
      · next absent =>
        obtain ⟨flag, indexes⟩ := rep.indexes.insert_accepted nonzero absent fits price (side == .buy)
        rw [sideOf_eq] at indexes
        have size : (b.step (.add ref side shares price)).1.liveOrders =
            (b.orders.insert ref shares price (side == .buy)).1.size := by
          simp only [OrderBook.step, OrderBook.add, flag, Bool.not_true, Bool.false_eq_true, if_false,
            OrderBook.liveOrders, OrderBook.updateLadder_orders]
        rw [size, indexes.size] at few
        exact few
  · exact less.trans_lt rep.few

/-- What every reachable book satisfies. -/
theorem rep_run {cs : List OrderBook.Call} (run : Runs.Admitted OrderBook.step OrderBook.Admits {} cs) :
    ∃ m, Rep (Runs.after OrderBook.step {} cs) m := by
  refine Runs.invariant (fun b => ∃ m, Rep b m) ?_ ⟨∅, rep_new⟩ run
  rintro b c ⟨m, rep⟩ ⟨fits, few⟩
  exact ⟨_, (rep.step c fits (rep.few_step fits few)).1⟩

/-- **Index, ladders and totals agree** on every reachable book, whatever was
accepted or refused on the way: both listings are the aggregation of the live
orders, the totals are their sums, and no subtraction of the next call wraps. -/
theorem ladders_aggregate_orders (cs : List OrderBook.Call) (run : Runs.Admitted OrderBook.step OrderBook.Admits {} cs) :
    (∀ buy, (Runs.after OrderBook.step {} cs).Aggregates buy) ∧
    (Runs.after OrderBook.step {} cs).orderShares.toNat =
      OrderBook.quantity (Runs.after OrderBook.step {} cs).orders.entries ∧
    (Runs.after OrderBook.step {} cs).levelShares.toNat =
      OrderBook.quantity (Runs.after OrderBook.step {} cs).orders.entries ∧
    (Runs.after OrderBook.step {} cs).levelOrders.toNat = (Runs.after OrderBook.step {} cs).orders.entries.length ∧
    ∀ c, ∀ sub ∈ (Runs.after OrderBook.step {} cs).stepSubs c, sub.2 ≤ sub.1 := by
  obtain ⟨m, rep⟩ := rep_run run
  have small := rep.shares_lt
  have few := rep.few
  refine ⟨rep.toShows.aggregates, ?_, ?_, ?_, rep.stepSubs⟩
  · rw [rep.orderShares, ← rep.indexes.quantity, BitVec.toNat_ofNat, Nat.mod_eq_of_lt (by omega)]
  · rw [rep.levelShares, ← rep.indexes.quantity, BitVec.toNat_ofNat, Nat.mod_eq_of_lt (by omega)]
  · rw [rep.levelOrders, ← rep.indexes.entries_length, BitVec.toNat_ofNat, Nat.mod_eq_of_lt (by omega)]

/-- A run with a duplicate, the reference 0 and a price that moves the window. -/
theorem ladders_aggregate_orders_run :
    (Runs.after OrderBook.step {} [.add 1#64 .buy 10#32 10000#32, .add 1#64 .buy 5#32 10000#32, .add 0#64 .buy 5#32 10000#32,
      .add 2#64 .buy 4#32 900000#32, .reduce 1#64 3#32]).levelShares.toNat = 11 :=
  (ladders_aggregate_orders [.add 1#64 .buy 10#32 10000#32, .add 1#64 .buy 5#32 10000#32, .add 0#64 .buy 5#32 10000#32,
    .add 2#64 .buy 4#32 900000#32, .reduce 1#64 3#32] (by decide +kernel)).2.2.1.trans (by decide +kernel)

end Nts.Book
