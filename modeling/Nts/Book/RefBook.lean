import Nts.Lib.FinmapFacts
import Nts.Book.OrderBook

/-!
# The naive reference book

A finite map from reference to side, quantity and price, in unbounded numbers.
Everything a book shows is recomputed from the map. `Adds` says that one map holds
one more order than another as far as any sum can tell; it is all the ladders need to know.
-/

namespace Nts.Book

/-- A live order. -/
structure Resting where
  side : Side
  qty : Nat
  price : Nat
  deriving DecidableEq, Repr

/-- The live orders by reference. -/
abbrev RefBook := Finmap fun _ : BitVec 64 => Resting

namespace RefBook

/-- Total quantity resting on a side at a price. -/
def sharesAt (m : RefBook) (side : Side) (price : Nat) : Nat :=
  m.total fun o => if o.side = side ∧ o.price = price then o.qty else 0

/-- Number of orders resting on a side at a price. -/
def ordersAt (m : RefBook) (side : Side) (price : Nat) : Nat :=
  m.total fun o => if o.side = side ∧ o.price = price then 1 else 0

/-- Total resting quantity. -/
def restingShares (m : RefBook) : Nat := m.total Resting.qty

/-- Number of live orders. -/
def liveOrders (m : RefBook) : Nat := m.keys.card

/-- Quantity of an order, 0 if it is not live. -/
def sharesOf (m : RefBook) (ref : BitVec 64) : Nat := ((m.lookup ref).map Resting.qty).getD 0

/-- The prices at which orders of a side rest. -/
def prices (m : RefBook) (side : Side) : Finset Nat :=
  ((m.entries.filter fun e => e.2.side = side).map fun e => e.2.price).toFinset

/-- The highest live buy price or the lowest live sell price. -/
def bestPrice (m : RefBook) : Side → Option Nat
  | .buy => (m.prices .buy).max
  | .sell => (m.prices .sell).min

/-- Price, total shares and order count of the best level. -/
def best (m : RefBook) (side : Side) : Option (Nat × Nat × Nat) :=
  (m.bestPrice side).map fun p => (p, m.sharesAt side p, m.ordersAt side p)

/-- One call on the reference book. -/
def step (m : RefBook) : OrderBook.Call → RefBook × ApplyResult
  | .add ref side shares price =>
    if ref ∈ m then (m, .duplicateRef) else (m.insert ref ⟨side, shares.toNat, price.toNat⟩, .applied)
  | .reduce ref shares =>
    match m.lookup ref with
    | none => (m, .unknownRef)
    | some o =>
      (if o.qty ≤ shares.toNat then m.erase ref else m.insert ref { o with qty := o.qty - shares.toNat },
        if o.qty < shares.toNat then .clampedReduce else .applied)
  | .remove ref =>
    match m.lookup ref with
    | none => (m, .unknownRef)
    | some _ => (m.erase ref, .applied)
  | .replace originalRef newRef shares price =>
    match m.lookup originalRef with
    | none => (m, .unknownRef)
    | some o =>
      if newRef ≠ originalRef ∧ newRef ∈ m then (m, .duplicateRef)
      else ((m.erase originalRef).insert newRef ⟨o.side, shares.toNat, price.toNat⟩, .applied)

/-! ## One order more -/

/-- `m'` weighs as `m` and `o` together, whatever is weighed. -/
def Adds (m : RefBook) (o : Resting) (m' : RefBook) : Prop := ∀ w : Resting → Nat, m'.total w = w o + m.total w

theorem adds_insert {m : RefBook} {ref : BitVec 64} (absent : ref ∉ m) (o : Resting) : Adds m o (m.insert ref o) :=
  fun w => Finmap.total_insert_new absent o w

theorem adds_erase {m : RefBook} {ref : BitVec 64} {o : Resting} (live : m.lookup ref = some o) :
    Adds (m.erase ref) o m :=
  fun w => Finmap.total_of_lookup live w

theorem adds_update (m : RefBook) (ref : BitVec 64) (o : Resting) : Adds (m.erase ref) o (m.insert ref o) :=
  fun w => Finmap.total_insert m ref o w

variable {m m' : RefBook} {o : Resting}

theorem Adds.sharesAt (adds : Adds m o m') (side : Side) (price : Nat) :
    m'.sharesAt side price = (if o.side = side ∧ o.price = price then o.qty else 0) + m.sharesAt side price := adds _

theorem Adds.ordersAt (adds : Adds m o m') (side : Side) (price : Nat) :
    m'.ordersAt side price = (if o.side = side ∧ o.price = price then 1 else 0) + m.ordersAt side price := adds _

theorem Adds.restingShares (adds : Adds m o m') : m'.restingShares = o.qty + m.restingShares := adds _

theorem Adds.liveOrders (adds : Adds m o m') : m'.liveOrders = 1 + m.liveOrders := by
  have count := adds fun _ => 1
  rwa [Finmap.total_one, Finmap.total_one] at count

/-- The two maps aggregate alike on the other side. -/
def AgreeOff (side : Side) (m m' : RefBook) : Prop := ∀ side', side' ≠ side → ∀ price,
  m'.sharesAt side' price = m.sharesAt side' price ∧ m'.ordersAt side' price = m.ordersAt side' price

theorem Adds.agreeOff (adds : Adds m o m') : AgreeOff o.side m m' := by
  intro side' other price
  rw [adds.sharesAt, adds.ordersAt, if_neg (fun here => other here.1.symm), if_neg (fun here => other here.1.symm),
    Nat.zero_add, Nat.zero_add]
  exact ⟨rfl, rfl⟩

theorem AgreeOff.symm {side : Side} (agree : AgreeOff side m m') : AgreeOff side m' m :=
  fun side' other price => ⟨(agree side' other price).1.symm, (agree side' other price).2.symm⟩

theorem AgreeOff.trans {side : Side} {m'' : RefBook} (agree : AgreeOff side m m') (agree' : AgreeOff side m' m'') :
    AgreeOff side m m'' := fun side' other price =>
  ⟨(agree' side' other price).1.trans (agree side' other price).1, (agree' side' other price).2.trans (agree side' other price).2⟩

/-! ## Bounds -/

theorem ordersAt_le (m : RefBook) (side : Side) (price : Nat) : m.ordersAt side price ≤ m.liveOrders := by
  have bound : m.ordersAt side price ≤ 1 * m.liveOrders := Finmap.total_le fun _ o _ => by split <;> omega
  rwa [one_mul] at bound

/-- An order's quantity is part of every sum it belongs to. -/
theorem qty_le_sharesAt {ref : BitVec 64} (live : m.lookup ref = some o) : o.qty ≤ m.sharesAt o.side o.price := by
  have part := Finmap.le_total live fun o' => if o'.side = o.side ∧ o'.price = o.price then o'.qty else 0
  simpa [sharesAt] using part

theorem one_le_ordersAt {ref : BitVec 64} (live : m.lookup ref = some o) : 1 ≤ m.ordersAt o.side o.price := by
  have part := Finmap.le_total live fun o' => if o'.side = o.side ∧ o'.price = o.price then 1 else 0
  simpa [ordersAt] using part

theorem qty_le_restingShares {ref : BitVec 64} (live : m.lookup ref = some o) : o.qty ≤ m.restingShares :=
  Finmap.le_total live Resting.qty

theorem one_le_liveOrders {ref : BitVec 64} (live : m.lookup ref = some o) : 1 ≤ m.liveOrders := by
  have part := Finmap.le_total live fun _ => 1
  rwa [Finmap.total_one] at part

/-- Where orders are counted one of them is found. -/
theorem exists_of_ordersAt {side : Side} {price : Nat} (peopled : m.ordersAt side price ≠ 0) :
    ∃ ref o, m.lookup ref = .some o ∧ o.side = side ∧ o.price = price := by
  obtain ⟨ref, o, live, weighs⟩ := Finmap.exists_of_total_ne_zero peopled
  by_cases here : o.side = side ∧ o.price = price
  · exact ⟨ref, o, live, here⟩
  · rw [if_neg here] at weighs
    exact (weighs rfl).elim

/-- Without orders there are no shares. -/
theorem sharesAt_of_ordersAt {side : Side} {price : Nat} (zero : m.ordersAt side price = 0) : m.sharesAt side price = 0 := by
  by_contra some
  obtain ⟨ref, o, live, weighs⟩ := Finmap.exists_of_total_ne_zero some
  by_cases here : o.side = side ∧ o.price = price
  · obtain ⟨rfl, rfl⟩ := here
    have := one_le_ordersAt live
    omega
  · rw [if_neg here] at weighs
    exact weighs rfl

theorem mem_prices {side : Side} {price : Nat} : price ∈ m.prices side ↔ m.ordersAt side price ≠ 0 := by
  have member : price ∈ m.prices side ↔ ∃ ref o, m.lookup ref = some o ∧ o.side = side ∧ o.price = price := by
    simp only [prices, Multiset.mem_toFinset, Multiset.mem_map, Multiset.mem_filter, Finmap.mem_entries_iff, Sigma.exists]
    constructor
    · rintro ⟨ref, o, ⟨live, side⟩, price⟩
      exact ⟨ref, o, live, side, price⟩
    · rintro ⟨ref, o, live, side, price⟩
      exact ⟨ref, o, ⟨live, side⟩, price⟩
  rw [member]
  constructor
  · rintro ⟨ref, o, live, rfl, rfl⟩
    have := one_le_ordersAt live
    omega
  · exact exists_of_ordersAt

end RefBook
end Nts.Book
