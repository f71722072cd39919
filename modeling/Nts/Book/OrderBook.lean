import Nts.Common.OrderIndex
import Nts.Book.PriceLevels

/-!
# `OrderBook` (`book/order_book.h`, `book/order_book.cc`)

The displayed limit order book for one symbol: the order index, one ladder for
each side, and the running totals. Definitions only, in the source's order. Beside each
operation that subtracts stands the list of its unsigned subtractions on the
levels and totals, as pairs of what is subtracted from and what is subtracted.
-/

namespace Nts.Book

/-- `ApplyResult`. -/
inductive ApplyResult where
  | applied
  | unknownRef
  | duplicateRef
  | clampedReduce
  deriving DecidableEq, Repr

/-- An unsigned subtraction: what is subtracted from, and what is subtracted. -/
abbrev Subtraction := Nat × Nat

namespace PriceLevels

/-- The subtractions of `reduce`. -/
def reduceSubs (s : PriceLevels) (price shares : BitVec 32) : List Subtraction :=
  match s.cellOf price with
  | some i => [((s.cellAt i).shares.toNat, shares.toNat)]
  | none =>
    match s.far[price]? with
    | some l => [(l.shares.toNat, shares.toNat)]
    | none => []

/-- The subtractions of `remove`. -/
def removeSubs (s : PriceLevels) (price shares : BitVec 32) : List Subtraction :=
  match s.cellOf price with
  | some i => [((s.cellAt i).shares.toNat, shares.toNat), ((s.cellAt i).orders.toNat, 1)]
  | none =>
    match s.far[price]? with
    | some l => [(l.shares.toNat, shares.toNat), (l.orders.toNat, 1)]
    | none => []

end PriceLevels

structure OrderBook where
  orders : OrderIndex := {}
  bids : PriceLevels := PriceLevels.new .buy 0#32 kDefaultSpan
  asks : PriceLevels := PriceLevels.new .sell 0#32 kDefaultSpan
  orderShares : BitVec 64 := 0
  levelShares : BitVec 64 := 0
  levelOrders : BitVec 64 := 0

namespace OrderBook

/-- The reference `order_buy ? bids_ : asks_`, read. -/
def ladder (b : OrderBook) (buy : Bool) : PriceLevels := if buy then b.bids else b.asks

/-- A call on the reference `order_buy ? bids_ : asks_`. -/
def updateLadder (b : OrderBook) (buy : Bool) (f : PriceLevels → PriceLevels) : OrderBook :=
  if buy then { b with bids := f b.bids } else { b with asks := f b.asks }

/-- `add`. -/
def add (b : OrderBook) (ref : BitVec 64) (side : Side) (shares price : BitVec 32) : OrderBook × ApplyResult :=
  let (orders, inserted) := b.orders.insert ref shares price (side == .buy)
  let b := { b with orders }
  if !inserted then (b, .duplicateRef)
  else
    let b := { b with orderShares := b.orderShares + shares.setWidth 64 }
    let b := b.updateLadder (side == .buy) fun s => s.add price shares
    ({ b with levelShares := b.levelShares + shares.setWidth 64, levelOrders := b.levelOrders + 1#64 }, .applied)

/-- `reduce`. -/
def reduce (b : OrderBook) (ref : BitVec 64) (shares : BitVec 32) : OrderBook × ApplyResult :=
  match b.orders.find ref with
  | none => (b, .unknownRef)
  | some i =>
    let order := b.orders.orderAt i
    let clamped := decide (shares > order.qty)
    let reduceBy := if clamped then order.qty else shares
    let left := order.qty - reduceBy
    let b := { b with orders := b.orders.setShares i (if order.buy then left ||| kSideBit else left) }
    let b := { b with orderShares := b.orderShares - reduceBy.setWidth 64 }
    let dies := decide (left = 0#32)
    let b :=
      if dies then
        let b := b.updateLadder order.buy fun s => s.remove order.price reduceBy
        { b with levelOrders := b.levelOrders - 1#64 }
      else b.updateLadder order.buy fun s => s.reduce order.price reduceBy
    let b := { b with levelShares := b.levelShares - reduceBy.setWidth 64 }
    let b := if dies then { b with orders := (b.orders.erase ref).1 } else b
    (b, if clamped then .clampedReduce else .applied)

/-- The subtractions of `reduce`. -/
def reduceSubs (b : OrderBook) (ref : BitVec 64) (shares : BitVec 32) : List Subtraction :=
  match b.orders.find ref with
  | none => []
  | some i =>
    let order := b.orders.orderAt i
    let reduceBy := if shares > order.qty then order.qty else shares
    [(b.orderShares.toNat, reduceBy.toNat)] ++
    (if order.qty - reduceBy = 0#32 then
      (b.ladder order.buy).removeSubs order.price reduceBy ++ [(b.levelOrders.toNat, 1)]
    else (b.ladder order.buy).reduceSubs order.price reduceBy) ++
    [(b.levelShares.toNat, reduceBy.toNat)]

/-- `remove`. -/
def remove (b : OrderBook) (ref : BitVec 64) : OrderBook × ApplyResult :=
  match b.orders.find ref with
  | none => (b, .unknownRef)
  | some i =>
    let order := b.orders.orderAt i
    let b := { b with orderShares := b.orderShares - order.qty.setWidth 64 }
    let b := b.updateLadder order.buy fun s => s.remove order.price order.qty
    let b := { b with levelShares := b.levelShares - order.qty.setWidth 64, levelOrders := b.levelOrders - 1#64 }
    ({ b with orders := (b.orders.erase ref).1 }, .applied)

/-- The subtractions of `remove`. -/
def removeSubs (b : OrderBook) (ref : BitVec 64) : List Subtraction :=
  match b.orders.find ref with
  | none => []
  | some i =>
    let order := b.orders.orderAt i
    [(b.orderShares.toNat, order.qty.toNat)] ++ (b.ladder order.buy).removeSubs order.price order.qty ++
    [(b.levelShares.toNat, order.qty.toNat), (b.levelOrders.toNat, 1)]

/-- `replace`. -/
def replace (b : OrderBook) (originalRef newRef : BitVec 64) (shares price : BitVec 32) : OrderBook × ApplyResult :=
  match b.orders.find originalRef with
  | none => (b, .unknownRef)
  | some i =>
    if newRef ≠ originalRef ∧ (b.orders.find newRef).isSome then (b, .duplicateRef)
    else
      let side := if (b.orders.orderAt i).buy then Side.buy else Side.sell
      let (b, removed) := b.remove originalRef
      if removed ≠ .applied then (b, removed) else b.add newRef side shares price

/-- The subtractions of `replace`. -/
def replaceSubs (b : OrderBook) (originalRef newRef : BitVec 64) : List Subtraction :=
  match b.orders.find originalRef with
  | none => []
  | some _ => if newRef ≠ originalRef ∧ (b.orders.find newRef).isSome then [] else b.removeSubs originalRef

/-- `best_bid`. -/
def bestBid (b : OrderBook) : Option Level := b.bids.best

/-- `best_ask`. -/
def bestAsk (b : OrderBook) : Option Level := b.asks.best

/-- `live_orders`. -/
def liveOrders (b : OrderBook) : Nat := b.orders.size

/-- `shares_of`. -/
def sharesOf (b : OrderBook) (ref : BitVec 64) : BitVec 32 :=
  match b.orders.find ref with
  | none => 0#32
  | some i => (b.orders.orderAt i).qty

/-- `resting_shares`. -/
def restingShares (b : OrderBook) : BitVec 64 := b.orderShares

/-- `reserve`. -/
def reserve (b : OrderBook) : OrderBook := { b with bids := b.bids.reserve, asks := b.asks.reserve }

/-- `check_invariants_fast`. -/
def checkInvariantsFast (b : OrderBook) : Bool := b.orderShares == b.levelShares && b.orders.size == b.levelOrders.toNat

/-- `side_matches`. -/
def sideMatches (stored : PriceLevels) (computed : Std.TreeMap (BitVec 32) Level) : Bool :=
  if !stored.checkInvariants then false
  else if stored.levels.length ≠ computed.size then false
  else stored.levels.all fun level =>
    if level.shares = 0#64 ∨ level.orders = 0#32 then false
    else match computed[level.price]? with
      | none => false
      | some l => level.shares == l.shares && level.orders == l.orders

/-- The rebuild of `check_invariants`: one order is credited to its level of `computed_bids` or `computed_asks`. -/
def rebuild (computed : Std.TreeMap (BitVec 32) Level × Std.TreeMap (BitVec 32) Level) (e : BitVec 64 × Order) :
    Std.TreeMap (BitVec 32) Level × Std.TreeMap (BitVec 32) Level :=
  let credit (levels : Std.TreeMap (BitVec 32) Level) :=
    let l := levels.getD e.2.price {}
    levels.insert e.2.price ⟨e.2.price, l.shares + e.2.qty.setWidth 64, l.orders + 1#32⟩
  if e.2.buy then (credit computed.1, computed.2) else (computed.1, credit computed.2)

/-- `check_invariants`. -/
def checkInvariants (b : OrderBook) : Bool :=
  if !b.checkInvariantsFast then false
  else
    let computed := b.orders.entries.foldl rebuild (∅, ∅)
    sideMatches b.bids computed.1 && sideMatches b.asks computed.2

/-- The calls that change a book. -/
inductive Call where
  | add (ref : BitVec 64) (side : Side) (shares price : BitVec 32)
  | reduce (ref : BitVec 64) (shares : BitVec 32)
  | remove (ref : BitVec 64)
  | replace (originalRef newRef : BitVec 64) (shares price : BitVec 32)
  deriving DecidableEq, Repr

/-- One call on a book. -/
def step (b : OrderBook) : Call → OrderBook × ApplyResult
  | .add ref side shares price => b.add ref side shares price
  | .reduce ref shares => b.reduce ref shares
  | .remove ref => b.remove ref
  | .replace originalRef newRef shares price => b.replace originalRef newRef shares price

/-- The subtractions of one call. -/
def stepSubs (b : OrderBook) : Call → List Subtraction
  | .add .. => []
  | .reduce ref shares => b.reduceSubs ref shares
  | .remove ref => b.removeSubs ref
  | .replace originalRef newRef .. => b.replaceSubs originalRef newRef

end OrderBook
end Nts.Book
