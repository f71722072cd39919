import Nts.Book.OrderBook

/-!
# The parts of a book a call changes

An accepted call changes the index, makes one call on one ladder, and moves the three
totals. `Parts` says so for a pair of books; there is one equation for each outcome of each call, and
nothing is assumed of the book. All later arguments about a call start from these.
-/

namespace Nts.Book.OrderBook

variable {b : OrderBook}

@[simp] theorem updateLadder_orders (b : OrderBook) (buy : Bool) (f : PriceLevels → PriceLevels) :
    (b.updateLadder buy f).orders = b.orders := by cases buy <;> rfl

@[simp] theorem updateLadder_orderShares (b : OrderBook) (buy : Bool) (f : PriceLevels → PriceLevels) :
    (b.updateLadder buy f).orderShares = b.orderShares := by cases buy <;> rfl

@[simp] theorem updateLadder_levelShares (b : OrderBook) (buy : Bool) (f : PriceLevels → PriceLevels) :
    (b.updateLadder buy f).levelShares = b.levelShares := by cases buy <;> rfl

@[simp] theorem updateLadder_levelOrders (b : OrderBook) (buy : Bool) (f : PriceLevels → PriceLevels) :
    (b.updateLadder buy f).levelOrders = b.levelOrders := by cases buy <;> rfl

/-- One ladder call in the middle of an operation that touches the ladders nowhere else. -/
theorem ladder_of_update {b b₀ b' : OrderBook} {buy : Bool} {f : PriceLevels → PriceLevels}
    (bids' : b'.bids = (b₀.updateLadder buy f).bids) (asks' : b'.asks = (b₀.updateLadder buy f).asks)
    (bids : b₀.bids = b.bids) (asks : b₀.asks = b.asks) (buy' : Bool) :
    b'.ladder buy' = if buy' = buy then f (b.ladder buy) else b.ladder buy' := by
  cases buy <;> cases buy' <;> simp [ladder, updateLadder, bids, asks, bids', asks']

/-- The totals a book keeps: of the orders, of the levels, and the number of orders in the levels. -/
abbrev Totals := BitVec 64 × BitVec 64 × BitVec 64

/-- The totals of a book. -/
def totals (b : OrderBook) : Totals := (b.orderShares, b.levelShares, b.levelOrders)

/-- `b'` is `b` with another index, one call on one ladder, and other totals. -/
structure Parts (b b' : OrderBook) (orders : OrderIndex) (buy : Bool) (f : PriceLevels → PriceLevels)
    (totals : Totals) : Prop where
  orders : b'.orders = orders
  ladder : ∀ buy', b'.ladder buy' = if buy' = buy then f (b.ladder buy) else b.ladder buy'
  totals : b'.totals = totals

variable {ref : BitVec 64}

/-! ## `add` -/

theorem add_refused {side : Side} {shares price : BitVec 32}
    (refused : (b.orders.insert ref shares price (side == .buy)).2 = false) : b.add ref side shares price =
      ({ b with orders := (b.orders.insert ref shares price (side == .buy)).1 }, .duplicateRef) := by
  unfold add
  simp only [refused, Bool.not_false, if_true]

theorem add_inserted {side : Side} {shares price : BitVec 32}
    (inserted : (b.orders.insert ref shares price (side == .buy)).2 = true) :
    (b.add ref side shares price).2 = .applied ∧
      Parts b (b.add ref side shares price).1 (b.orders.insert ref shares price (side == .buy)).1 (side == .buy)
        (fun s => s.add price shares)
        (b.orderShares + shares.setWidth 64, b.levelShares + shares.setWidth 64, b.levelOrders + 1#64) := by
  unfold add
  simp only [inserted, Bool.not_true, Bool.false_eq_true, if_false, true_and]
  refine ⟨updateLadder_orders _ _ _, ladder_of_update rfl rfl rfl rfl, ?_⟩
  simp only [totals, updateLadder_orderShares, updateLadder_levelShares, updateLadder_levelOrders]

/-! ## `remove` and `reduce` -/

theorem remove_found {i : Nat} (found : b.orders.find ref = some i) : (b.remove ref).2 = .applied ∧
    Parts b (b.remove ref).1 (b.orders.erase ref).1 (b.orders.orderAt i).buy
      (fun s => s.remove (b.orders.orderAt i).price (b.orders.orderAt i).qty)
      (b.orderShares - (b.orders.orderAt i).qty.setWidth 64, b.levelShares - (b.orders.orderAt i).qty.setWidth 64,
        b.levelOrders - 1#64) := by
  unfold remove
  simp only [found, true_and]
  refine ⟨?_, ladder_of_update rfl rfl rfl rfl, ?_⟩
  · simp only [updateLadder_orders]
  · simp only [totals, updateLadder_orderShares, updateLadder_levelShares, updateLadder_levelOrders]

theorem remove_absent (absent : b.orders.find ref = none) : b.remove ref = (b, .unknownRef) := by
  simp only [remove, absent]

/-- The quantity `reduce` takes off, and what it leaves. -/
theorem reduceBy_toNat (qty shares : BitVec 32) :
    (if decide (shares > qty) = true then qty else shares).toNat = min qty.toNat shares.toNat ∧
      (qty - if decide (shares > qty) = true then qty else shares).toNat = qty.toNat - shares.toNat := by
  by_cases clamped : shares > qty
  · rw [if_pos (decide_eq_true clamped)]
    constructor <;> bv_omega
  · rw [if_neg (by simpa using clamped)]
    constructor <;> bv_omega

/-- A reduction by all there is or more: the order dies. -/
theorem reduce_dies {i : Nat} (found : b.orders.find ref = some i) {shares : BitVec 32}
    (all : (b.orders.orderAt i).qty.toNat ≤ shares.toNat) : (b.reduce ref shares).2 =
        (if (b.orders.orderAt i).qty.toNat < shares.toNat then .clampedReduce else .applied) ∧
      Parts b (b.reduce ref shares).1
        ((b.orders.setShares i (OrderIndex.packShares 0#32 (b.orders.orderAt i).buy)).erase ref).1
        (b.orders.orderAt i).buy (fun s => s.remove (b.orders.orderAt i).price (b.orders.orderAt i).qty)
        (b.orderShares - (b.orders.orderAt i).qty.setWidth 64, b.levelShares - (b.orders.orderAt i).qty.setWidth 64,
          b.levelOrders - 1#64) := by
  have taken : (if decide (shares > (b.orders.orderAt i).qty) = true then (b.orders.orderAt i).qty else shares) =
      (b.orders.orderAt i).qty := by
    apply BitVec.eq_of_toNat_eq
    rw [(reduceBy_toNat _ _).1]
    omega
  unfold reduce
  simp only [found, taken, BitVec.sub_self, decide_true, if_true]
  refine ⟨?_, ?_, ladder_of_update rfl rfl rfl rfl, ?_⟩
  · simp only [decide_eq_true_eq, gt_iff_lt, BitVec.lt_def]
  · simp only [updateLadder_orders]
    rfl
  · simp only [totals, updateLadder_orderShares, updateLadder_levelShares, updateLadder_levelOrders]

/-- A reduction by less: the order stays. -/
theorem reduce_stays {i : Nat} (found : b.orders.find ref = some i) {shares : BitVec 32}
    (less : shares.toNat < (b.orders.orderAt i).qty.toNat) : (b.reduce ref shares).2 = .applied ∧
      Parts b (b.reduce ref shares).1
        (b.orders.setShares i (OrderIndex.packShares ((b.orders.orderAt i).qty - shares) (b.orders.orderAt i).buy))
        (b.orders.orderAt i).buy (fun s => s.reduce (b.orders.orderAt i).price shares)
        (b.orderShares - shares.setWidth 64, b.levelShares - shares.setWidth 64, b.levelOrders) := by
  have notClamped : ¬ shares > (b.orders.orderAt i).qty := by bv_omega
  have stays : ¬ (b.orders.orderAt i).qty - shares = 0#32 := by bv_omega
  unfold reduce
  simp only [found, notClamped, decide_false, Bool.false_eq_true, if_false, stays, true_and]
  refine ⟨?_, ladder_of_update rfl rfl rfl rfl, ?_⟩
  · simp only [updateLadder_orders]
    rfl
  · simp only [totals, updateLadder_orderShares, updateLadder_levelShares, updateLadder_levelOrders]

theorem reduce_absent (absent : b.orders.find ref = none) (shares : BitVec 32) :
    b.reduce ref shares = (b, .unknownRef) := by
  simp only [reduce, absent]

/-! ## `replace` -/

variable {originalRef newRef : BitVec 64}

theorem replace_absent (absent : b.orders.find originalRef = none) (shares price : BitVec 32) :
    b.replace originalRef newRef shares price = (b, .unknownRef) := by
  simp only [replace, absent]

theorem replace_taken {i : Nat} (found : b.orders.find originalRef = some i)
    (taken : newRef ≠ originalRef ∧ (b.orders.find newRef).isSome) (shares price : BitVec 32) :
    b.replace originalRef newRef shares price = (b, .duplicateRef) := by
  unfold replace
  simp only [found]
  rw [if_pos taken]

/-- Past both checks a replacement is a removal and an addition on the same side. -/
theorem replace_free {i : Nat} (found : b.orders.find originalRef = some i)
    (free : ¬ (newRef ≠ originalRef ∧ (b.orders.find newRef).isSome)) (shares price : BitVec 32) :
    b.replace originalRef newRef shares price = (b.remove originalRef).1.add newRef
      (if (b.orders.orderAt i).buy then .buy else .sell) shares price := by
  unfold replace
  simp only [found]
  rw [if_neg free, if_neg (not_not.mpr (remove_found found).1)]

end Nts.Book.OrderBook
