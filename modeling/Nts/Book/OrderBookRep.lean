import Nts.Common.OrderIndexMap
import Nts.Book.PriceLevelsOps
import Nts.Book.PriceLevelsReads
import Nts.Book.RefBook
import Nts.Book.OrderBookParts

/-!
# The book and the reference book

`Indexes` relates the order index, `Mirrors` one ladder to the reference map. A book `Tracks` the map
with its index and its totals, and `Shows` it with its ladders too, as long as no level counts 2^32 orders;
`Rep` bounds the whole book. Each relation has one lemma for each way the map can change.
-/

namespace Nts.Book

/-! ## Packed orders -/

theorem getLsbD_kSideBit {i : Nat} (less : i < 32) : kSideBit.getLsbD i = decide (i = 31) := by
  have all : ∀ i : Fin 32, kSideBit.getLsbD i = decide (i.val = 31) := by decide
  exact all ⟨i, less⟩

theorem getLsbD_qty (o : Order) {i : Nat} (less : i < 32) : o.qty.getLsbD i = (o.shares.getLsbD i && !decide (i = 31)) := by
  rw [Order.qty, BitVec.getLsbD_and, BitVec.getLsbD_not, getLsbD_kSideBit less]
  simp [less]

theorem buy_eq (o : Order) : o.buy = o.shares.getLsbD 31 := by
  have word : kSideBit = BitVec.twoPow 32 31 := by decide
  rw [Order.buy, word, BitVec.and_twoPow]
  cases o.shares.getLsbD 31 <;> decide

theorem qty_toNat_lt (o : Order) : o.qty.toNat < 2 ^ 31 := by
  have clear : o.qty.toNat.testBit 31 = false := by
    rw [← BitVec.getLsbD, getLsbD_qty o (by decide)]
    simp
  by_contra big
  have high := Nat.testBit_of_two_pow_le_and_two_pow_add_one_gt (Nat.not_lt.mp big) o.qty.isLt
  rw [clear] at high
  cases high

/-- A quantity below 2^31 and a side come back out of the word they are packed in. -/
theorem packShares_fits {qty : BitVec 32} (small : qty.toNat < 2 ^ 31) (buy : Bool) (price : BitVec 32) :
    (⟨OrderIndex.packShares qty buy, price⟩ : Order).qty = qty ∧ (⟨OrderIndex.packShares qty buy, price⟩ : Order).buy = buy := by
  have top : qty.getLsbD 31 = false := Nat.testBit_eq_false_of_lt small
  have packed : ∀ {i : Nat}, i < 32 → (OrderIndex.packShares qty buy).getLsbD i = (qty.getLsbD i || (buy && decide (i = 31))) := by
    intro i less
    cases buy with
    | true => rw [OrderIndex.packShares, if_pos rfl, BitVec.getLsbD_or, getLsbD_kSideBit less, Bool.true_and]
    | false => simp [OrderIndex.packShares]
  constructor
  · apply BitVec.eq_of_getLsbD_eq
    intro i less
    rw [getLsbD_qty _ less, packed less]
    by_cases here : i = 31
    · subst here
      rw [top]
      simp
    · simp [here]
  · rw [buy_eq, packed (by decide), top]
    simp

/-- The side of the flag `buy`. -/
def sideOf (buy : Bool) : Side := if buy then .buy else .sell

theorem sideOf_eq (side : Side) : sideOf (side == .buy) = side := by cases side <;> rfl

/-- What a packed order says. -/
def restingOf (o : Order) : Resting := ⟨sideOf o.buy, o.qty.toNat, o.price.toNat⟩

theorem restingOf_pack {qty : BitVec 32} (small : qty.toNat < 2 ^ 31) (buy : Bool) (price : BitVec 32) :
    restingOf ⟨OrderIndex.packShares qty buy, price⟩ = ⟨sideOf buy, qty.toNat, price.toNat⟩ := by
  obtain ⟨quantity, side⟩ := packShares_fits small buy price
  simp only [restingOf, quantity, side]

/-! ## The index -/

/-- The index holds exactly the orders of the map. -/
structure Indexes (t : OrderIndex) (m : RefBook) : Prop where
  packed : ∃ om, OrderIndex.Rep t om ∧ ∀ ref, m.lookup ref = (om.lookup ref).map restingOf

section Indexes
variable {t : OrderIndex} {m : RefBook} {ref : BitVec 64} {o : Resting}

theorem indexes_new : Indexes {} ∅ := ⟨∅, OrderIndex.rep_new, fun _ => rfl⟩

theorem Indexes.mem_iff {om : OrderIndex.OrderMap} (same : ∀ ref, m.lookup ref = (om.lookup ref).map restingOf) :
    ref ∈ m ↔ ref ∈ om := by
  rw [Finmap.mem_iff, Finmap.mem_iff, same]
  simp [Option.map_eq_some_iff]

theorem Indexes.zero_notMem (indexes : Indexes t m) : 0#64 ∉ m := by
  obtain ⟨om, rep, same⟩ := indexes.packed
  rw [Indexes.mem_iff same]
  exact rep.zero_notMem

/-- The entries `for_each` visits, read, enumerate the map. -/
theorem Indexes.enumerates (indexes : Indexes t m) :
    ((t.entries.map fun e => (e.1, restingOf e.2)).map Prod.fst).Nodup ∧
      ∀ ref o, (ref, o) ∈ (t.entries.map fun e => (e.1, restingOf e.2)) ↔ m.lookup ref = some o := by
  obtain ⟨om, rep, same⟩ := indexes.packed
  constructor
  · rw [List.map_map]
    exact rep.inv.nodup
  · intro ref o
    rw [same, Option.map_eq_some_iff, List.mem_map]
    constructor
    · rintro ⟨⟨ref', o'⟩, member, eq⟩
      cases eq
      exact ⟨o', (rep.same ref' o').mp member, rfl⟩
    · rintro ⟨o', stored, rfl⟩
      exact ⟨(ref, o'), (rep.same ref o').mpr stored, rfl⟩

theorem Indexes.size (indexes : Indexes t m) : t.size = m.liveOrders := by
  obtain ⟨om, rep, same⟩ := indexes.packed
  rw [rep.size, RefBook.liveOrders]
  congr 1
  ext ref
  rw [Finmap.mem_keys, Finmap.mem_keys, Indexes.mem_iff same]

theorem Indexes.find_absent (indexes : Indexes t m) (absent : ref ∉ m) : t.find ref = none := by
  obtain ⟨om, rep, same⟩ := indexes.packed
  exact rep.find_absent (mt (Indexes.mem_iff same).mpr absent)

/-- The pointer to a live order, and writing its quantity through it. -/
theorem Indexes.find_live (indexes : Indexes t m) (live : m.lookup ref = some o) :
    ∃ i, t.find ref = some i ∧ restingOf (t.orderAt i) = o ∧ ∀ left : BitVec 32, left.toNat < 2 ^ 31 →
      Indexes (t.setShares i (OrderIndex.packShares left (t.orderAt i).buy)) (m.insert ref { o with qty := left.toNat }) := by
  obtain ⟨om, rep, same⟩ := indexes.packed
  have stored := live
  rw [same, Option.map_eq_some_iff] at stored
  obtain ⟨o', stored, rfl⟩ := stored
  obtain ⟨i, found, _, order, _⟩ := rep.find_live stored
  refine ⟨i, found, congrArg restingOf order, ?_⟩
  intro left small
  refine ⟨_, rep.setShares stored found (OrderIndex.packShares left (t.orderAt i).buy), ?_⟩
  intro ref'
  rw [Finmap.lookup_insert_ite, Finmap.lookup_insert_ite, same]
  split
  · rw [Option.map_some, order]
    exact congrArg some (restingOf_pack small _ _).symm
  · rfl

/-- The fields of a live order, read through the pointer. -/
theorem Indexes.found (indexes : Indexes t m) (live : m.lookup ref = some o) : ∃ i, t.find ref = some i ∧
    o.side = sideOf (t.orderAt i).buy ∧ o.qty = (t.orderAt i).qty.toNat ∧ o.price = (t.orderAt i).price.toNat := by
  obtain ⟨i, found, reads, _⟩ := indexes.find_live live
  rw [← reads]
  exact ⟨i, found, rfl, rfl, rfl⟩

theorem Indexes.insert_refused (indexes : Indexes t m) (refused : ref = 0#64 ∨ ref ∈ m) (qty price : BitVec 32) (buy : Bool) :
    (t.insert ref qty price buy).2 = false ∧ Indexes (t.insert ref qty price buy).1 m := by
  obtain ⟨om, rep, same⟩ := indexes.packed
  obtain ⟨flag, rep'⟩ := rep.insert_refused (refused.imp_right (Indexes.mem_iff same).mp) qty price buy
  exact ⟨flag, om, rep', same⟩

theorem Indexes.insert_accepted (indexes : Indexes t m) (nonzero : ref ≠ 0#64) (absent : ref ∉ m) {qty : BitVec 32}
    (small : qty.toNat < 2 ^ 31) (price : BitVec 32) (buy : Bool) : (t.insert ref qty price buy).2 = true ∧
      Indexes (t.insert ref qty price buy).1 (m.insert ref ⟨sideOf buy, qty.toNat, price.toNat⟩) := by
  obtain ⟨om, rep, same⟩ := indexes.packed
  obtain ⟨flag, rep'⟩ := rep.insert_accepted nonzero (mt (Indexes.mem_iff same).mpr absent) qty price buy
  refine ⟨flag, _, rep', ?_⟩
  intro ref'
  rw [Finmap.lookup_insert_ite, Finmap.lookup_insert_ite, same]
  split
  · exact congrArg some (restingOf_pack small buy price).symm
  · rfl

theorem Indexes.erase_live (indexes : Indexes t m) (live : m.lookup ref = some o) : Indexes (t.erase ref).1 (m.erase ref) := by
  obtain ⟨om, rep, same⟩ := indexes.packed
  have stored := live
  rw [same, Option.map_eq_some_iff] at stored
  obtain ⟨o', stored, rfl⟩ := stored
  refine ⟨_, (rep.erase_live stored).2, ?_⟩
  intro ref'
  rw [Finmap.lookup_erase_ite, Finmap.lookup_erase_ite, same]
  split <;> rfl

/-- Every quantity in a book fits 31 bits. -/
theorem Indexes.qty_lt (indexes : Indexes t m) (live : m.lookup ref = some o) : o.qty < 2 ^ 31 := by
  obtain ⟨om, _, same⟩ := indexes.packed
  rw [same, Option.map_eq_some_iff] at live
  obtain ⟨o', _, rfl⟩ := live
  exact qty_toNat_lt o'

end Indexes

/-! ## The ladders -/

/-- The level that `shares` and `orders` at a price make. -/
def levelOf (price : BitVec 32) (shares orders : Nat) : Option Level :=
  if orders = 0 then none else some ⟨price, .ofNat 64 shares, .ofNat 32 orders⟩

/-- The words of a level, also where there is none. -/
theorem levelOf_getD (price : BitVec 32) {shares orders : Nat} (empty : orders = 0 → shares = 0) :
    ((levelOf price shares orders).getD {}).shares = .ofNat 64 shares ∧
      ((levelOf price shares orders).getD {}).orders = .ofNat 32 orders := by
  unfold levelOf
  split
  · next deserted =>
    rw [deserted, empty deserted]
    exact ⟨rfl, rfl⟩
  · exact ⟨rfl, rfl⟩

/-- The ladder holds the aggregation of the map's orders of one side. -/
structure Mirrors (s : PriceLevels) (side : Side) (m : RefBook) : Prop where
  inv : PriceLevels.Inv s
  sided : s.side = side
  level : ∀ p : BitVec 32, s.level? p = levelOf p (m.sharesAt side p.toNat) (m.ordersAt side p.toNat)

section Mirrors
variable {s : PriceLevels} {side : Side} {m m' : RefBook} {o o' : Resting}

theorem mirrors_new (side : Side) : Mirrors (PriceLevels.new side 0#32 kDefaultSpan) side ∅ := by
  obtain ⟨inv, empty⟩ := PriceLevels.inv_new side 0#32 kDefaultSpan (by decide) (by decide)
  exact ⟨inv, rfl, fun p => by rw [empty]; rfl⟩

/-- Orders of the other side do not show. -/
theorem Mirrors.other (mirrors : Mirrors s side m) (other : side ≠ o.side) (agree : RefBook.AgreeOff o.side m m') :
    Mirrors s side m' := by
  refine ⟨mirrors.inv, mirrors.sided, fun p => ?_⟩
  obtain ⟨shares, orders⟩ := agree side other p.toNat
  rw [mirrors.level, shares, orders]

/-- The level at the price of a counted order. -/
theorem Mirrors.stored (mirrors : Mirrors s o.side m) {p : BitVec 32} (price : o.price = p.toNat)
    (peopled : m.ordersAt o.side o.price ≠ 0) : s.level? p =
      .some ⟨p, .ofNat 64 (m.sharesAt o.side o.price), .ofNat 32 (m.ordersAt o.side o.price)⟩ := by
  rw [mirrors.level, levelOf, ← price, if_neg peopled]

/-- A change at one price shows the map changed at that price. -/
theorem Mirrors.update (mirrors : Mirrors s side m) {s' : PriceLevels} (inv : PriceLevels.Inv s') (kept : s'.side = s.side)
    {p : BitVec 32} {l : Option Level} (level : s'.level? = Function.update s.level? p l)
    (here : l = levelOf p (m'.sharesAt side p.toNat) (m'.ordersAt side p.toNat))
    (elsewhere : ∀ q : Nat, q ≠ p.toNat → m'.sharesAt side q = m.sharesAt side q ∧ m'.ordersAt side q = m.ordersAt side q) :
    Mirrors s' side m' := by
  refine ⟨inv, kept.trans mirrors.sided, fun q => ?_⟩
  rw [level, Function.update_apply]
  split
  · next eq =>
    subst eq
    exact here
  · next ne =>
    obtain ⟨shares, orders⟩ := elsewhere q.toNat fun eq => ne (BitVec.eq_of_toNat_eq eq)
    rw [shares, orders]
    exact mirrors.level q

/-- `add` mirrors one order more. -/
theorem Mirrors.add (mirrors : Mirrors s o.side m) (adds : RefBook.Adds m o m') {p shares : BitVec 32}
    (price : o.price = p.toNat) (qty : o.qty = shares.toNat) (few : m'.ordersAt o.side o.price < 2 ^ 32) :
    Mirrors (s.add p shares) o.side m' := by
  have sharesHere := adds.sharesAt o.side p.toNat
  have ordersHere := adds.ordersAt o.side p.toNat
  rw [if_pos ⟨rfl, price⟩] at sharesHere ordersHere
  rw [price] at few
  have here : s.level? p = levelOf p (m.sharesAt o.side p.toNat) (m.ordersAt o.side p.toNat) := mirrors.level p
  obtain ⟨shares', orders'⟩ : ((s.level? p).getD {}).shares = .ofNat 64 (m.sharesAt o.side p.toNat) ∧
      ((s.level? p).getD {}).orders = .ofNat 32 (m.ordersAt o.side p.toNat) := by
    rw [here]
    exact levelOf_getD p RefBook.sharesAt_of_ordersAt
  have room : ((s.level? p).getD {}).orders + 1#32 ≠ 0#32 := by
    rw [orders']
    bv_omega
  obtain ⟨inv, level⟩ := mirrors.inv.add shares room
  refine mirrors.update inv (PriceLevels.add_side _ _ _) level ?_ fun q ne => ?_
  · rw [levelOf, if_neg (by omega), PriceLevels.credit, shares', orders', sharesHere, ordersHere, qty]
    congr 2
    · bv_omega
    · bv_omega
  · rw [adds.sharesAt, adds.ordersAt, if_neg (fun at' => ne (at'.2.symm.trans price)), if_neg (fun at' => ne (at'.2.symm.trans price)),
      Nat.zero_add, Nat.zero_add]
    exact ⟨rfl, rfl⟩

/-- `remove` mirrors one order fewer. -/
theorem Mirrors.remove (mirrors : Mirrors s o.side m) (adds : RefBook.Adds m' o m) (p shares : BitVec 32)
    (price : o.price = p.toNat) (qty : o.qty = shares.toNat) (few : m.ordersAt o.side o.price < 2 ^ 32) :
    Mirrors (s.remove p shares) o.side m' := by
  have sharesHere := adds.sharesAt o.side o.price
  have ordersHere := adds.ordersAt o.side o.price
  rw [if_pos ⟨rfl, rfl⟩] at sharesHere ordersHere
  have stored := mirrors.stored price (by omega)
  obtain ⟨inv, level⟩ := mirrors.inv.remove stored shares
  refine mirrors.update inv (PriceLevels.remove_side _ _ _) level ?_ fun q ne => ?_
  · rw [levelOf, ← price]
    dsimp only
    by_cases last : m'.ordersAt o.side o.price = 0
    · have zero : BitVec.ofNat 32 (m.ordersAt o.side o.price) - 1#32 = 0#32 := by bv_omega
      rw [if_pos zero, if_pos last]
    · have stays : ¬ BitVec.ofNat 32 (m.ordersAt o.side o.price) - 1#32 = 0#32 := by bv_omega
      rw [if_neg stays, if_neg last, sharesHere, ordersHere, qty]
      congr 2 <;> bv_omega
  · rw [adds.sharesAt, adds.ordersAt, if_neg (fun at' => ne (at'.2.symm.trans price)), if_neg (fun at' => ne (at'.2.symm.trans price)),
      Nat.zero_add, Nat.zero_add]
    exact ⟨rfl, rfl⟩

/-- `reduce` mirrors an order that shrinks and stays. -/
theorem Mirrors.reduce (mirrors : Mirrors s o.side m) {rest : RefBook} (adds : RefBook.Adds rest o m)
    (adds' : RefBook.Adds rest o' m') (side : o'.side = o.side) (p shares : BitVec 32) (price : o.price = p.toNat)
    (price' : o'.price = o.price) (qty : o.qty = o'.qty + shares.toNat) :
    Mirrors (s.reduce p shares) o.side m' := by
  have sharesHere := adds.sharesAt o.side o.price
  have ordersHere := adds.ordersAt o.side o.price
  have sharesHere' := adds'.sharesAt o.side o.price
  have ordersHere' := adds'.ordersAt o.side o.price
  rw [if_pos ⟨rfl, rfl⟩] at sharesHere ordersHere
  rw [if_pos ⟨side, price'⟩] at sharesHere' ordersHere'
  have stored := mirrors.stored price (by omega)
  obtain ⟨inv, level⟩ := mirrors.inv.reduce stored shares
  refine mirrors.update inv (PriceLevels.reduce_side _ _ _) level ?_ fun q ne => ?_
  · rw [levelOf, ← price, if_neg (by omega), sharesHere, ordersHere, sharesHere', ordersHere', qty]
    congr 2
    bv_omega
  · have off : ∀ o₁ : Resting, o₁.price = o.price → ¬ (o₁.side = o.side ∧ o₁.price = q) :=
      fun o₁ same at' => ne (at'.2.symm.trans (same.trans price))
    rw [adds.sharesAt, adds.ordersAt, adds'.sharesAt, adds'.ordersAt, if_neg (off o rfl), if_neg (off o rfl),
      if_neg (off o' price'), if_neg (off o' price')]
    exact ⟨rfl, rfl⟩

end Mirrors

/-! ## Index and totals -/

/-- The index holds the map's orders, and the totals are the map's, as far as 64 bits go. -/
structure Tracks (b : OrderBook) (m : RefBook) : Prop where
  indexes : Indexes b.orders m
  orderShares : b.orderShares = .ofNat 64 m.restingShares
  levelShares : b.levelShares = .ofNat 64 m.restingShares
  levelOrders : b.levelOrders = .ofNat 64 m.liveOrders

theorem tracks_new : Tracks {} ∅ := ⟨indexes_new, rfl, rfl, rfl⟩

section Tracks
variable {b b' : OrderBook} {m m' : RefBook} {ref : BitVec 64} {o : Resting}

theorem OrderBook.Parts.tracks {orders : OrderIndex} {buy : Bool} {f : PriceLevels → PriceLevels} {t : OrderBook.Totals}
    (parts : OrderBook.Parts b b' orders buy f t) (indexes : Indexes orders m')
    (orderShares : t.1 = .ofNat 64 m'.restingShares) (levelShares : t.2.1 = .ofNat 64 m'.restingShares)
    (levelOrders : t.2.2 = .ofNat 64 m'.liveOrders) : Tracks b' m' := by
  have totals := parts.totals
  refine ⟨parts.orders ▸ indexes, ?_, ?_, ?_⟩
  · rw [← orderShares, ← totals]
    rfl
  · rw [← levelShares, ← totals]
    rfl
  · rw [← levelOrders, ← totals]
    rfl

theorem Tracks.add_refused (tracks : Tracks b m) (refused : ref = 0#64 ∨ ref ∈ m) (side : Side) (shares price : BitVec 32) :
    (b.add ref side shares price).2 = .duplicateRef ∧ Tracks (b.add ref side shares price).1 m := by
  obtain ⟨flag, indexes⟩ := tracks.indexes.insert_refused refused shares price (side == .buy)
  rw [OrderBook.add_refused flag]
  exact ⟨rfl, indexes, tracks.orderShares, tracks.levelShares, tracks.levelOrders⟩

theorem Tracks.add_accepted (tracks : Tracks b m) (nonzero : ref ≠ 0#64) (absent : ref ∉ m) (side : Side)
    {shares : BitVec 32} (small : shares.toNat < 2 ^ 31) (price : BitVec 32) :
    (b.add ref side shares price).2 = .applied ∧
      Tracks (b.add ref side shares price).1 (m.insert ref ⟨side, shares.toNat, price.toNat⟩) := by
  obtain ⟨flag, indexes⟩ := tracks.indexes.insert_accepted nonzero absent small price (side == .buy)
  rw [sideOf_eq] at indexes
  obtain ⟨applied, parts⟩ := OrderBook.add_inserted flag
  have adds := RefBook.adds_insert absent ⟨side, shares.toNat, price.toNat⟩
  refine ⟨applied, parts.tracks indexes ?_ ?_ ?_⟩
  · rw [adds.restingShares, tracks.orderShares]
    bv_omega
  · rw [adds.restingShares, tracks.levelShares]
    bv_omega
  · rw [adds.liveOrders, tracks.levelOrders]
    bv_omega

theorem Tracks.remove_live (tracks : Tracks b m) (live : m.lookup ref = some o) :
    (b.remove ref).2 = .applied ∧ Tracks (b.remove ref).1 (m.erase ref) := by
  obtain ⟨i, found, _, qty, _⟩ := tracks.indexes.found live
  obtain ⟨applied, parts⟩ := OrderBook.remove_found found
  have adds := RefBook.adds_erase live
  have count := adds.liveOrders
  have sum := adds.restingShares
  refine ⟨applied, parts.tracks (tracks.indexes.erase_live live) ?_ ?_ ?_⟩
  · rw [tracks.orderShares]
    bv_omega
  · rw [tracks.levelShares]
    bv_omega
  · rw [tracks.levelOrders]
    bv_omega

theorem Tracks.reduce_live (tracks : Tracks b m) (live : m.lookup ref = some o) (shares : BitVec 32) :
    (b.reduce ref shares).2 = (if o.qty < shares.toNat then .clampedReduce else .applied) ∧
      Tracks (b.reduce ref shares).1
        (if o.qty ≤ shares.toNat then m.erase ref else m.insert ref { o with qty := o.qty - shares.toNat }) := by
  obtain ⟨i, found, _, qty, _⟩ := tracks.indexes.found live
  obtain ⟨j, found', _, write⟩ := tracks.indexes.find_live live
  obtain rfl : i = j := Option.some.inj (found.symm.trans found')
  have adds := RefBook.adds_erase live
  have count := adds.liveOrders
  have sum := adds.restingShares
  have small := tracks.indexes.qty_lt live
  by_cases dies : o.qty ≤ shares.toNat
  · obtain ⟨result, parts⟩ := OrderBook.reduce_dies found (by omega : (b.orders.orderAt i).qty.toNat ≤ shares.toNat)
    have erased := (write 0#32 (by decide)).erase_live (Finmap.lookup_insert (a := ref) _)
    rw [Finmap.erase_insert_self] at erased
    rw [if_pos dies, result, qty]
    refine ⟨rfl, parts.tracks erased ?_ ?_ ?_⟩
    · rw [tracks.orderShares]
      bv_omega
    · rw [tracks.levelShares]
      bv_omega
    · rw [tracks.levelOrders]
      bv_omega
  · obtain ⟨result, parts⟩ := OrderBook.reduce_stays found (by omega : shares.toNat < (b.orders.orderAt i).qty.toNat)
    have left : ((b.orders.orderAt i).qty - shares).toNat = o.qty - shares.toNat := by bv_omega
    have wrote := write ((b.orders.orderAt i).qty - shares) (by omega)
    rw [left] at wrote
    have again := RefBook.adds_update m ref { o with qty := o.qty - shares.toNat }
    have count' := again.liveOrders
    have sum' := again.restingShares
    dsimp only at sum'
    rw [if_neg dies, if_neg (by omega), result]
    refine ⟨rfl, parts.tracks wrote ?_ ?_ ?_⟩
    · rw [tracks.orderShares]
      bv_omega
    · rw [tracks.levelShares]
      bv_omega
    · rw [tracks.levelOrders, count', count]

end Tracks

/-! ## The ladders too -/

/-- The ladders hold the aggregation of the map. -/
structure Shows (b : OrderBook) (m : RefBook) : Prop extends Tracks b m where
  ladder : ∀ buy, Mirrors (b.ladder buy) (sideOf buy) m
  counted : ∀ side price, m.ordersAt side price < 2 ^ 32

theorem shows_new : Shows {} ∅ where
  toTracks := tracks_new
  ladder := fun buy => by cases buy <;> exact mirrors_new _
  counted := fun side price => (RefBook.ordersAt_le ∅ side price).trans_lt (by decide)

section Shows
variable {b : OrderBook} {m m' : RefBook} {ref : BitVec 64} {o : Resting}

theorem sideOf_injective {buy buy' : Bool} (same : sideOf buy = sideOf buy') : buy = buy' := by
  cases buy <;> cases buy' <;> first | rfl | cases same

/-- A ladder call on the side of an order leaves the other side as it was. -/
theorem Shows.ladders (shown : Shows b m) {b' : OrderBook} {orders : OrderIndex} {buy : Bool}
    {f : PriceLevels → PriceLevels} {t : OrderBook.Totals} (parts : OrderBook.Parts b b' orders buy f t)
    (side : o.side = sideOf buy) (agree : RefBook.AgreeOff o.side m m') (mirrors : Mirrors (f (b.ladder buy)) o.side m')
    (buy' : Bool) : Mirrors (b'.ladder buy') (sideOf buy') m' := by
  rw [parts.ladder]
  split
  · next eq =>
    subst eq
    rw [← side]
    exact mirrors
  · next ne =>
    apply (shown.ladder buy').other _ agree
    rw [side]
    exact fun eq => ne (sideOf_injective eq)

/-- The ladder of an order's side. -/
theorem Shows.mirror (shown : Shows b m) {buy : Bool} (side : o.side = sideOf buy) : Mirrors (b.ladder buy) o.side m :=
  side ▸ shown.ladder buy

/-- With one order fewer no level grows. -/
theorem Shows.fewer (shown : Shows b m) (adds : RefBook.Adds m' o m) (side : Side) (price : Nat) :
    m'.ordersAt side price < 2 ^ 32 := by
  have counted := shown.counted side price
  have here := adds.ordersAt side price
  omega

theorem Shows.add_refused (shown : Shows b m) (refused : ref = 0#64 ∨ ref ∈ m) (side : Side) (shares price : BitVec 32) :
    (b.add ref side shares price).2 = .duplicateRef ∧ Shows (b.add ref side shares price).1 m := by
  obtain ⟨result, tracks⟩ := shown.toTracks.add_refused refused side shares price
  obtain ⟨flag, _⟩ := shown.indexes.insert_refused refused shares price (side == .buy)
  refine ⟨result, tracks, ?_, shown.counted⟩
  rw [OrderBook.add_refused flag]
  exact shown.ladder

theorem Shows.add_accepted (shown : Shows b m) (nonzero : ref ≠ 0#64) (absent : ref ∉ m) (side : Side)
    {shares : BitVec 32} (small : shares.toNat < 2 ^ 31) (price : BitVec 32)
    (counted : ∀ side' price', RefBook.ordersAt (m.insert ref ⟨side, shares.toNat, price.toNat⟩) side' price' < 2 ^ 32) :
    (b.add ref side shares price).2 = .applied ∧
      Shows (b.add ref side shares price).1 (m.insert ref ⟨side, shares.toNat, price.toNat⟩) := by
  obtain ⟨result, tracks⟩ := shown.toTracks.add_accepted nonzero absent side small price
  obtain ⟨flag, _⟩ := shown.indexes.insert_accepted nonzero absent small price (side == .buy)
  obtain ⟨_, parts⟩ := OrderBook.add_inserted flag
  have adds := RefBook.adds_insert absent ⟨side, shares.toNat, price.toNat⟩
  have here : side = sideOf (side == .buy) := (sideOf_eq side).symm
  exact ⟨result, tracks, shown.ladders (o := ⟨side, shares.toNat, price.toNat⟩) parts here adds.agreeOff
    ((shown.mirror here).add adds rfl rfl (counted _ _)), counted⟩

theorem Shows.remove_live (shown : Shows b m) (live : m.lookup ref = some o) :
    (b.remove ref).2 = .applied ∧ Shows (b.remove ref).1 (m.erase ref) := by
  obtain ⟨result, tracks⟩ := shown.toTracks.remove_live live
  obtain ⟨i, found, side, qty, price⟩ := shown.indexes.found live
  obtain ⟨_, parts⟩ := OrderBook.remove_found found
  have adds := RefBook.adds_erase live
  exact ⟨result, tracks, shown.ladders parts side adds.agreeOff.symm
    ((shown.mirror side).remove adds _ _ price qty (shown.counted _ _)), shown.fewer adds⟩

theorem Shows.reduce_live (shown : Shows b m) (live : m.lookup ref = some o) (shares : BitVec 32) :
    (b.reduce ref shares).2 = (if o.qty < shares.toNat then .clampedReduce else .applied) ∧
      Shows (b.reduce ref shares).1
        (if o.qty ≤ shares.toNat then m.erase ref else m.insert ref { o with qty := o.qty - shares.toNat }) := by
  obtain ⟨result, tracks⟩ := shown.toTracks.reduce_live live shares
  obtain ⟨i, found, side, qty, price⟩ := shown.indexes.found live
  have adds := RefBook.adds_erase live
  refine ⟨result, tracks, ?_, ?_⟩
  · by_cases dies : o.qty ≤ shares.toNat
    · obtain ⟨_, parts⟩ := OrderBook.reduce_dies found (by omega : (b.orders.orderAt i).qty.toNat ≤ shares.toNat)
      rw [if_pos dies]
      exact shown.ladders parts side adds.agreeOff.symm
        ((shown.mirror side).remove adds _ _ price qty (shown.counted _ _))
    · obtain ⟨_, parts⟩ := OrderBook.reduce_stays found (by omega : shares.toNat < (b.orders.orderAt i).qty.toNat)
      have adds' := RefBook.adds_update m ref { o with qty := o.qty - shares.toNat }
      rw [if_neg dies]
      exact shown.ladders parts side (adds.agreeOff.symm.trans adds'.agreeOff)
        ((shown.mirror side).reduce adds adds' rfl _ shares price rfl (by dsimp only; omega))
  · intro side' price'
    split
    · exact shown.fewer adds side' price'
    · have again := (RefBook.adds_update m ref { o with qty := o.qty - shares.toNat }).ordersAt side' price'
      have counted := shown.counted side' price'
      have here := adds.ordersAt side' price'
      dsimp only at again
      omega

end Shows

/-! ## The book -/

/-- The book shows exactly what the map holds. -/
structure Rep (b : OrderBook) (m : RefBook) : Prop extends Shows b m where
  few : m.liveOrders < 2 ^ 32

section Rep
variable {b : OrderBook} {m : RefBook} {ref : BitVec 64} {o : Resting}

theorem rep_new : Rep {} ∅ := ⟨shows_new, by decide⟩

theorem Rep.find_absent (rep : Rep b m) (absent : m.lookup ref = none) : b.orders.find ref = none :=
  rep.indexes.find_absent (Finmap.lookup_eq_none.mp absent)

end Rep

end Nts.Book
