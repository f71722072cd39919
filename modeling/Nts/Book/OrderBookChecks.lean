import Nts.Book.FastCheck
import Nts.Book.OrderBookTotals
import Nts.Book.PriceLevelsChecks
import Nts.Book.Window
import Nts.Book.WireQuantities

/-!
# The check of a book

`check_invariants` rebuilds both sides from the live orders and compares them with the ladders.
On a book that shows a reference map the rebuild finds every price as the ladder stores it, so the check can fail
only on an empty level. None ever appears while no call puts an empty order into the book
and no level comes to hold 2^32 orders.
-/

namespace Nts.Book

/-! ## The rebuild -/

/-- The map of one side out of the two that are rebuilt. -/
def computedSide (computed : Std.TreeMap (BitVec 32) Level × Std.TreeMap (BitVec 32) Level) (buy : Bool) :
    Std.TreeMap (BitVec 32) Level := if buy then computed.1 else computed.2

/-- The orders of one side at a price. -/
def ordersOf (entries : List (BitVec 64 × Order)) (buy : Bool) (price : BitVec 32) : List (BitVec 64 × Order) :=
  entries.filter fun e => e.2.buy == buy && e.2.price == price

theorem quantity_append (l : List (BitVec 64 × Order)) (e : BitVec 64 × Order) :
    OrderBook.quantity (l ++ [e]) = OrderBook.quantity l + e.2.qty.toNat := by
  simp only [OrderBook.quantity, List.map_append, List.map_cons, List.map_nil, List.sum_append, List.sum_singleton]

theorem quantity_of_length {l : List (BitVec 64 × Order)} (empty : l.length = 0) : OrderBook.quantity l = 0 := by
  rw [List.length_eq_zero_iff.mp empty]
  rfl

theorem ordersOf_append (entries : List (BitVec 64 × Order)) (e : BitVec 64 × Order) (buy : Bool) (price : BitVec 32) :
    ordersOf (entries ++ [e]) buy price =
      ordersOf entries buy price ++ bif e.2.buy == buy && e.2.price == price then [e] else [] := by
  rw [ordersOf, List.filter_append, List.filter_singleton]
  rfl

/-- One order is credited to the level of its price and side. -/
theorem rebuild_level (computed : Std.TreeMap (BitVec 32) Level × Std.TreeMap (BitVec 32) Level)
    (e : BitVec 64 × Order) (buy : Bool) (price : BitVec 32) :
    (computedSide (OrderBook.rebuild computed e) buy)[price]? =
      if e.2.buy = buy ∧ e.2.price = price then
        some ⟨price, (((computedSide computed buy)[price]?).getD {}).shares + e.2.qty.setWidth 64,
          (((computedSide computed buy)[price]?).getD {}).orders + 1#32⟩
      else (computedSide computed buy)[price]? := by
  have credit : ∀ levels : Std.TreeMap (BitVec 32) Level,
      (levels.insert e.2.price ⟨e.2.price, (levels.getD e.2.price {}).shares + e.2.qty.setWidth 64,
        (levels.getD e.2.price {}).orders + 1#32⟩)[price]? =
      if e.2.price = price then
        some ⟨price, ((levels[price]?).getD {}).shares + e.2.qty.setWidth 64, ((levels[price]?).getD {}).orders + 1#32⟩
      else levels[price]? := by
    intro levels
    rw [Std.TreeMap.getElem?_insert_ite, Std.TreeMap.getD_eq_getD_getElem?]
    by_cases here : e.2.price = price
    · rw [if_pos here.symm, if_pos here, here]
    · rw [if_neg (Ne.symm here), if_neg here]
  cases side : e.2.buy with
  | true =>
    cases buy with
    | true => simpa only [OrderBook.rebuild, side, computedSide, if_true, true_and] using credit computed.1
    | false => simp only [OrderBook.rebuild, side, computedSide, if_true, Bool.false_eq_true, if_false, reduceCtorEq, false_and]
  | false =>
    cases buy with
    | true => simp only [OrderBook.rebuild, side, computedSide, if_true, Bool.false_eq_true, if_false, false_and]
    | false => simpa only [OrderBook.rebuild, side, computedSide, Bool.false_eq_true, if_false, true_and] using credit computed.2

/-- The rebuild stores at each price the sum of the orders there. -/
theorem rebuilt_level (entries : List (BitVec 64 × Order)) (buy : Bool) (price : BitVec 32) :
    (computedSide (entries.foldl OrderBook.rebuild (∅, ∅)) buy)[price]? =
      levelOf price (OrderBook.quantity (ordersOf entries buy price)) (ordersOf entries buy price).length := by
  induction entries using List.reverseRecOn with
  | nil => cases buy <;> exact Std.TreeMap.getElem?_emptyc
  | append_singleton entries e ih =>
    have test : (e.2.buy == buy && e.2.price == price) = decide (e.2.buy = buy ∧ e.2.price = price) := by
      rw [Bool.decide_and]
      rfl
    rw [List.foldl_append, List.foldl_cons, List.foldl_nil, rebuild_level, ih, ordersOf_append, test]
    by_cases here : e.2.buy = buy ∧ e.2.price = price
    · obtain ⟨shares, orders⟩ := levelOf_getD price (quantity_of_length (l := ordersOf entries buy price))
      rw [if_pos here, decide_eq_true here, Bool.cond_true, shares, orders, quantity_append, List.length_append,
        List.length_singleton, levelOf, if_neg (Nat.succ_ne_zero _)]
      congr 2
      · bv_omega
      · bv_omega
    · rw [if_neg here, decide_eq_false here, Bool.cond_false, List.append_nil]

section
variable {b : OrderBook} {m : RefBook}

/-- The rebuild finds at each price what the ladder stores there. -/
theorem Shows.rebuilt (shown : Shows b m) (buy : Bool) (price : BitVec 32) :
    (computedSide (b.orders.entries.foldl OrderBook.rebuild (∅, ∅)) buy)[price]? = (b.ladder buy).level? price := by
  rw [rebuilt_level, (shown.ladder buy).level, shown.indexes.sharesAt, shown.indexes.ordersAt]
  rfl

end

/-! ## The comparison -/

/-- A ladder that agrees with the rebuild at every price passes the comparison when none of its levels is empty. -/
theorem sideMatches_iff {stored : PriceLevels} {computed : Std.TreeMap (BitVec 32) Level} (placed : stored.Placed)
    (same : ∀ price : BitVec 32, computed[price]? = stored.level? price) :
    OrderBook.sideMatches stored computed = true ↔ stored.Full := by
  have lengths : stored.levels.length = computed.size := by
    have distinct : (stored.levels.map Level.price).Nodup := by
      apply List.pairwise_map.mpr
      apply placed.levels_sorted.imp
      intro l l' better equal
      rw [equal] at better
      exact PriceLevels.better_asymm better better
    rw [← Std.TreeMap.length_keys, ← List.length_map (f := Level.price)]
    apply List.Perm.length_eq
    rw [List.perm_ext_iff_of_nodup distinct Std.TreeMap.nodup_keys]
    intro price
    rw [Std.TreeMap.mem_keys, Std.TreeMap.mem_iff_isSome_getElem?, same, List.mem_map, Option.isSome_iff_exists]
    constructor
    · rintro ⟨l, member, rfl⟩
      exact ⟨l, (placed.mem_levels l).mp member⟩
    · rintro ⟨l, here⟩
      obtain ⟨rfl, _⟩ := placed.level?_valid here
      exact ⟨l, (placed.mem_levels l).mpr here, rfl⟩
  unfold OrderBook.sideMatches
  constructor
  · intro passed
    split at passed
    · cases passed
    · next checked => exact placed.checkInvariants_iff.mp (by simpa using checked)
  · intro full
    rw [placed.checkInvariants_iff.mpr full, Bool.not_true, if_neg Bool.false_ne_true, if_neg (not_not.mpr lengths),
      List.all_eq_true]
    intro l member
    have here := (placed.mem_levels l).mp member
    have orders := (placed.level?_valid here).2
    simp only [full _ _ here, orders, or_self, if_false, same, here, BEq.rfl, Bool.and_self]

section
variable {b : OrderBook} {m : RefBook}

theorem Tracks.counted (tracks : Tracks b m) : b.Counted := by
  obtain ⟨om, rep, _⟩ := tracks.indexes.packed
  refine ⟨⟨om, rep⟩, tracks.orderShares.trans tracks.levelShares.symm, ?_⟩
  rw [tracks.levelOrders, tracks.indexes.size]

/-- `check_invariants` passes exactly when no level is empty. -/
theorem Shows.checkInvariants_iff (shown : Shows b m) : b.checkInvariants = true ↔ ∀ buy, (b.ladder buy).Full := by
  have bids : OrderBook.sideMatches b.bids (b.orders.entries.foldl OrderBook.rebuild (∅, ∅)).1 = true ↔ b.bids.Full :=
    sideMatches_iff (shown.ladder true).inv.toPlaced (shown.rebuilt true)
  have asks : OrderBook.sideMatches b.asks (b.orders.entries.foldl OrderBook.rebuild (∅, ∅)).2 = true ↔ b.asks.Full :=
    sideMatches_iff (shown.ladder false).inv.toPlaced (shown.rebuilt false)
  rw [OrderBook.checkInvariants, shown.toTracks.counted.checkInvariantsFast, Bool.not_true, if_neg Bool.false_ne_true,
    Bool.and_eq_true, bids, asks, Bool.forall_bool]
  exact and_comm

end

/-! ## Nothing empty -/

namespace RefBook

/-- No order is empty, and 32 bits count the orders of each level. -/
structure Sound (m : RefBook) : Prop where
  orders : ∀ ref o, m.lookup ref = some o → o.qty ≠ 0
  levels : ∀ side price, m.ordersAt side price < 2 ^ 32

variable {m m' : RefBook} {ref : BitVec 64} {o : Resting}

/-- The order is not empty, and its level has room for it. -/
def Joins (m : RefBook) (o : Resting) : Prop := o.qty ≠ 0 ∧ m.ordersAt o.side o.price + 1 < 2 ^ 32

theorem sound_empty : Sound ∅ where
  orders := fun _ _ live => by cases live
  levels := fun side price => (ordersAt_le ∅ side price).trans_lt (by decide)

theorem Sound.erase (sound : m.Sound) (ref : BitVec 64) : Sound (m.erase ref) := by
  refine ⟨fun ref' o live => ?_, fun side price => ?_⟩
  · rw [Finmap.lookup_erase_ite] at live
    split at live
    · cases live
    · exact sound.orders ref' o live
  · cases live : m.lookup ref with
    | none =>
      rw [Finmap.erase_of_notMem (Finmap.lookup_eq_none.mp live)]
      exact sound.levels side price
    | some o =>
      have less := (adds_erase live).ordersAt side price
      have bound := sound.levels side price
      omega

/-- A new order, or an order with a new quantity. -/
theorem Sound.insert (sound : Sound (m.erase ref)) (joins : Joins (m.erase ref) o) : Sound (m.insert ref o) := by
  refine ⟨fun ref' o' live => ?_, fun side price => ?_⟩
  · rw [Finmap.lookup_insert_ite] at live
    split at live
    · obtain rfl := Option.some.inj live
      exact joins.1
    · next ne =>
      apply sound.orders ref' o'
      rw [Finmap.lookup_erase_ite, if_neg ne]
      exact live
  · have more := (adds_update m ref o).ordersAt side price
    split at more
    · next here =>
      obtain ⟨rfl, rfl⟩ := here
      have room := joins.2
      omega
    · have bound := sound.levels side price
      omega

/-- If the call puts an order into the book, the order joins its level. -/
def KeepsLevels (m : RefBook) : OrderBook.Call → Prop
  | .add ref side shares price => ref ≠ 0#64 → ref ∉ m → m.Joins ⟨side, shares.toNat, price.toNat⟩
  | .replace originalRef newRef shares price => ∀ o, m.lookup originalRef = some o → newRef ≠ 0#64 →
    ¬ (newRef ≠ originalRef ∧ newRef ∈ m) → Joins (m.erase originalRef) ⟨o.side, shares.toNat, price.toNat⟩
  | _ => True

theorem Sound.step (sound : m.Sound) {c : OrderBook.Call} (keeps : m.KeepsLevels c) : (m.stepReserved c).1.Sound := by
  cases c with
  | add ref side shares price =>
    simp only [stepReserved, RefBook.step]
    split
    · exact sound
    · next nonzero =>
      split
      · exact sound
      · next absent =>
        have joins := keeps nonzero absent
        rw [← Finmap.erase_of_notMem absent] at sound joins
        exact sound.insert joins
  | reduce ref shares =>
    simp only [stepReserved, RefBook.step]
    cases live : m.lookup ref with
    | none => exact sound
    | some o =>
      dsimp only
      split
      · exact sound.erase ref
      · next stays =>
        have counted := sound.levels o.side o.price
        rw [(adds_erase live).ordersAt, if_pos ⟨rfl, rfl⟩] at counted
        refine (sound.erase ref).insert ⟨?_, ?_⟩
        · dsimp only
          omega
        · dsimp only
          omega
  | remove ref =>
    simp only [stepReserved, RefBook.step]
    cases m.lookup ref with
    | none => exact sound
    | some o => exact sound.erase ref
  | replace originalRef newRef shares price =>
    simp only [stepReserved, RefBook.step]
    split
    · exact sound.erase originalRef
    · next zero =>
      cases live : m.lookup originalRef with
      | none => exact sound
      | some o =>
        have member : originalRef ∈ m := Finmap.mem_of_lookup_eq_some live
        dsimp only
        split
        · exact sound
        · next free =>
          have absent : newRef ∉ m.erase originalRef := by
            rw [Finmap.mem_erase]
            exact free
          have joins := keeps o live (fun eq => zero ⟨eq, member⟩) free
          have rest := sound.erase originalRef
          rw [← Finmap.erase_of_notMem absent] at rest joins
          exact rest.insert joins

end RefBook

namespace OrderBook

/-- An order of `shares` beside `others`: it is not empty, and 32 bits count them all. -/
def Joins (shares : BitVec 32) (others : List (BitVec 64 × Order)) : Prop := shares ≠ 0#32 ∧ others.length + 1 < 2 ^ 32

instance (shares : BitVec 32) (others : List (BitVec 64 × Order)) : Decidable (Joins shares others) :=
  inferInstanceAs (Decidable (_ ∧ _))

/-- If the call puts an order into the book, the order joins its level. -/
def KeepsLevels (b : OrderBook) : Call → Prop
  | .add ref side shares price =>
    ref ≠ 0#64 ∧ b.orders.find ref = none → Joins shares (b.liveAt (side == .buy) price)
  | .replace originalRef newRef shares price => ∀ i ∈ b.orders.find originalRef,
    newRef ≠ 0#64 ∧ (newRef = originalRef ∨ b.orders.find newRef = none) →
      Joins shares ((b.liveAt (b.orders.orderAt i).buy price).filter fun e => e.1 ≠ originalRef)
  | _ => True

instance (b : OrderBook) : ∀ c, Decidable (b.KeepsLevels c)
  | .add .. => inferInstanceAs (Decidable (_ ∧ _ → Joins _ _))
  | .replace .. => inferInstanceAs (Decidable (∀ i ∈ _, _ ∧ _ → Joins _ _))
  | .reduce .. | .remove .. => inferInstanceAs (Decidable True)

/-- Nothing in the book is empty, and the check passes. -/
structure NothingEmpty (b : OrderBook) : Prop where
  orders : ∀ e ∈ b.orders.entries, e.2.qty ≠ 0#32
  levels : ∀ buy, ∀ l ∈ (b.ladder buy).levels, l.shares ≠ 0#64 ∧ l.orders ≠ 0#32
  bestBid : ∀ l, b.bestBid = some l → l.shares ≠ 0#64 ∧ l.orders ≠ 0#32
  bestAsk : ∀ l, b.bestAsk = some l → l.shares ≠ 0#64 ∧ l.orders ≠ 0#32
  checks : b.checkInvariants = true

end OrderBook

section
variable {b : OrderBook} {m : RefBook}

/-- The orders of a level but one. -/
theorem Indexes.ordersAt_erase (indexes : Indexes b.orders m) (ref : BitVec 64) (buy : Bool) (price : BitVec 32) :
    RefBook.ordersAt (m.erase ref) (sideOf buy) price.toNat = ((b.liveAt buy price).filter fun e => e.1 ≠ ref).length := by
  obtain ⟨nodup, same⟩ := indexes.enumerates
  have part : ((b.orders.entries.filter fun e => e.1 ≠ ref).map fun e => (e.1, restingOf e.2)) =
      (b.orders.entries.map fun e => (e.1, restingOf e.2)).filter fun e => e.1 ≠ ref := by
    rw [List.filter_map]
    rfl
  have distinct : ((b.orders.entries.filter fun e => e.1 ≠ ref).map fun e => (e.1, restingOf e.2)).map Prod.fst |>.Nodup := by
    rw [part]
    exact nodup.sublist (List.filter_sublist.map _)
  have rest : ∀ ref' o, (ref', o) ∈ ((b.orders.entries.filter fun e => e.1 ≠ ref).map fun e => (e.1, restingOf e.2)) ↔
      Finmap.lookup ref' (m.erase ref) = some o := by
    intro ref' o
    rw [part, List.mem_filter, same, Finmap.lookup_erase_ite, decide_eq_true_eq]
    split
    · next eq => exact ⟨fun member => absurd eq member.2, fun other => by cases other⟩
    · next ne => exact and_iff_left ne
  rw [RefBook.ordersAt_of_list distinct rest, OrderBook.liveAt, List.filter_comm]

theorem joins_iff {shares : BitVec 32} {others : List (BitVec 64 × Order)} {o : Resting} (qty : o.qty = shares.toNat)
    (counted : m.ordersAt o.side o.price = others.length) : m.Joins o ↔ OrderBook.Joins shares others := by
  rw [RefBook.Joins, OrderBook.Joins, qty, counted, ne_eq, ne_eq, ← BitVec.toNat_inj]
  exact Iff.rfl

/-- The condition can be read off the book. -/
theorem Indexes.keepsLevels_iff (indexes : Indexes b.orders m) (c : OrderBook.Call) :
    m.KeepsLevels c ↔ b.KeepsLevels c := by
  have absent : ∀ ref, b.orders.find ref = none ↔ ref ∉ m := by
    intro ref
    rw [← indexes.isSome_find, Option.isSome_iff_ne_none, not_not]
  cases c with
  | add ref side shares price =>
    have counted := indexes.ordersAt (side == .buy) price
    rw [sideOf_eq] at counted
    rw [RefBook.KeepsLevels, OrderBook.KeepsLevels, absent, ← joins_iff (o := ⟨side, shares.toNat, price.toNat⟩) rfl counted,
      and_imp]
  | reduce ref shares => exact Iff.rfl
  | remove ref => exact Iff.rfl
  | replace originalRef newRef shares price =>
    have free : (newRef = originalRef ∨ b.orders.find newRef = none) ↔ ¬ (newRef ≠ originalRef ∧ newRef ∈ m) := by
      rw [absent, not_and_or, not_not]
    have joins : ∀ i, RefBook.Joins (m.erase originalRef) ⟨sideOf (b.orders.orderAt i).buy, shares.toNat, price.toNat⟩ ↔
        OrderBook.Joins shares ((b.liveAt (b.orders.orderAt i).buy price).filter fun e => e.1 ≠ originalRef) := fun i =>
      joins_iff rfl (indexes.ordersAt_erase originalRef (b.orders.orderAt i).buy price)
    rw [RefBook.KeepsLevels, OrderBook.KeepsLevels]
    simp only [free, ← joins]
    cases live : m.lookup originalRef with
    | none =>
      rw [indexes.find_absent (Finmap.lookup_eq_none.mp live)]
      exact iff_of_true (fun _ other => by cases other) (fun _ other => by cases other)
    | some o =>
      obtain ⟨i, found, side, _⟩ := indexes.found live
      rw [found]
      simp only [Option.some.injEq, forall_eq', Option.mem_def, side, and_imp]

/-- Where no order is empty no level is. -/
theorem Shows.full (shown : Shows b m) (sound : m.Sound) (buy : Bool) : (b.ladder buy).Full := by
  intro p l stored
  obtain ⟨rfl, _⟩ := (shown.ladder buy).inv.level?_valid stored
  obtain ⟨peopled, shares, _⟩ := shown.level_values stored
  obtain ⟨ref, o, live, side, price⟩ := RefBook.exists_of_ordersAt peopled
  have part := RefBook.qty_le_sharesAt live
  have positive := sound.orders ref o live
  rw [side, price, ← shares] at part
  intro zero
  rw [zero, BitVec.toNat_zero] at part
  omega

theorem Shows.nothingEmpty (shown : Shows b m) (sound : m.Sound) : b.NothingEmpty := by
  have full := shown.full sound
  have level : ∀ buy p l, (b.ladder buy).level? p = some l → l.shares ≠ 0#64 ∧ l.orders ≠ 0#32 := fun buy p l stored =>
    ⟨full buy p l stored, ((shown.ladder buy).inv.level?_valid stored).2⟩
  have best : ∀ buy l, (b.ladder buy).best = some l → l.shares ≠ 0#64 ∧ l.orders ≠ 0#32 := by
    intro buy l found
    have spec := (shown.ladder buy).inv.best_spec
    rw [found] at spec
    exact level buy l.price l spec.1
  refine ⟨fun e member => ?_, fun buy l member => ?_, best true, best false, shown.checkInvariants_iff.mpr full⟩
  · have live := (shown.indexes.enumerates.2 e.1 (restingOf e.2)).mp (List.mem_map_of_mem member)
    have positive := sound.orders e.1 _ live
    intro zero
    rw [restingOf, zero] at positive
    exact positive rfl
  · exact level buy l.price l (((shown.ladder buy).inv.mem_levels l).mp member)

end

/-- A book that shows sound orders. -/
def OrderBook.Sound (b : OrderBook) : Prop := ∃ m, Shows b m ∧ m.Sound

section
variable {b : OrderBook} {m : RefBook}

/-- An empty order, or an order that is one too many for its level, leaves something empty. -/
theorem Shows.add_not_nothingEmpty (shown : Shows b m) {ref : BitVec 64} (nonzero : ref ≠ 0#64) (absent : ref ∉ m)
    (side : Side) {shares : BitVec 32} (small : shares.toNat < 2 ^ 31) {price : BitVec 32}
    (outgrown : ¬ m.Joins ⟨side, shares.toNat, price.toNat⟩) : ¬ (b.add ref side shares price).1.NothingEmpty := by
  intro nothing
  by_cases empty : shares.toNat = 0
  · obtain ⟨_, tracks⟩ := shown.toTracks.add_accepted nonzero absent side small price
    have inserted := (tracks.indexes.enumerates.2 ref ⟨side, shares.toNat, price.toNat⟩).mpr (Finmap.lookup_insert m)
    obtain ⟨e, member, reads⟩ := List.mem_map.mp inserted
    have qty : e.2.qty.toNat = shares.toNat := congrArg (fun x => x.2.qty) reads
    exact nothing.orders e member (BitVec.eq_of_toNat_eq (qty.trans empty))
  · -- the counter of the level wraps, and the level stays listed
    have counted := shown.counted side price.toNat
    have full : m.ordersAt side price.toNat = 2 ^ 32 - 1 := by
      have room : ¬ m.ordersAt side price.toNat + 1 < 2 ^ 32 := fun room => outgrown ⟨empty, room⟩
      omega
    obtain ⟨flag, _⟩ := shown.indexes.insert_accepted nonzero absent small price (side == .buy)
    obtain ⟨_, parts⟩ := OrderBook.add_inserted flag
    have mirrors := shown.ladder (side == .buy)
    rw [sideOf_eq] at mirrors
    have stored := mirrors.level price
    rw [levelOf, full, if_neg (by decide), ← mirrors.inv.listed_eq] at stored
    obtain ⟨windowed, _, credited⟩ :=
      mirrors.inv.windowed.add price shares
    have listed := credited _ stored
    have member := (windowed.toMarks.mem_levels (PriceLevels.credit _ price shares)).mpr listed
    have ladder := parts.ladder (side == .buy)
    rw [if_pos rfl] at ladder
    rw [← ladder] at member
    have wraps : BitVec.ofNat 32 (2 ^ 32 - 1) + 1#32 = 0#32 := by decide
    exact (nothing.levels _ _ member).2 wraps

theorem OrderBook.Sound.step (sound : b.Sound) {c : OrderBook.Call} (fits : c.Fits) (keeps : b.KeepsLevels c) :
    (b.step c).1.Sound := by
  obtain ⟨m, shown, sound⟩ := sound
  have sound' := sound.step ((shown.indexes.keepsLevels_iff c).mpr keeps)
  exact ⟨_, (follows_shows.step shown c (RefBook.small_of_fits fits m) sound'.levels).1, sound'⟩

theorem OrderBook.Sound.step_iff (sound : b.Sound) {c : OrderBook.Call} (fits : c.Fits) :
    (b.step c).1.NothingEmpty ↔ b.KeepsLevels c := by
  constructor
  · obtain ⟨m, shown, _⟩ := sound
    intro nothing
    rw [← shown.indexes.keepsLevels_iff]
    cases c with
    | add ref side shares price =>
      intro nonzero absent
      by_contra outgrown
      exact shown.add_not_nothingEmpty nonzero absent side fits outgrown nothing
    | reduce ref shares => trivial
    | remove ref => trivial
    | replace originalRef newRef shares price =>
      intro o live nonzero free
      by_contra outgrown
      obtain ⟨i, found, side, _⟩ := shown.indexes.found live
      have unused : ¬ (newRef ≠ originalRef ∧ (b.orders.find newRef).isSome) := by
        rw [shown.indexes.isSome_find]
        exact free
      have absent : newRef ∉ m.erase originalRef := by
        rw [Finmap.mem_erase]
        exact free
      have replaced : (b.step (.replace originalRef newRef shares price)).1 =
          ((b.remove originalRef).1.add newRef o.side shares price).1 := by
        rw [OrderBook.step, OrderBook.replace_free found unused, side, sideOf]
      rw [replaced] at nothing
      exact (shown.remove_live live).2.add_not_nothingEmpty nonzero absent o.side fits outgrown nothing
  · intro keeps
    obtain ⟨m, shown, sound⟩ := sound.step fits keeps
    exact shown.nothingEmpty sound

end

/-- **The order dies at zero** throughout a run exactly when no call of it puts an empty order into the book or
outgrows the counter of a level: no order, no level and no best level is ever empty, and `check_invariants` passes. -/
theorem nothingEmpty_iff (cs : List OrderBook.Call) (fits : ∀ c ∈ cs, c.Fits) :
    Runs.Admitted OrderBook.step (fun b c => (b.step c).1.NothingEmpty) {} cs ↔
      Runs.Admitted OrderBook.step OrderBook.KeepsLevels {} cs := by
  apply Runs.admitted_congr OrderBook.Sound
  · exact fun b c member sound => sound.step_iff (fits c member)
  · exact fun b c member sound nothing => sound.step (fits c member) ((sound.step_iff (fits c member)).mp nothing)
  · exact ⟨∅, shows_new, RefBook.sound_empty⟩

/-- A run with a replacement, a reduction to nothing and a duplicate of quantity 0. -/
theorem nothingEmpty_replaced : Runs.Admitted OrderBook.step (fun b c => (b.step c).1.NothingEmpty) {}
    [.add 1#64 .buy 10#32 10000#32, .add 1#64 .sell 0#32 10000#32, .replace 1#64 2#64 7#32 10050#32, .reduce 2#64 9#32] :=
  (nothingEmpty_iff [.add 1#64 .buy 10#32 10000#32, .add 1#64 .sell 0#32 10000#32, .replace 1#64 2#64 7#32 10050#32,
    .reduce 2#64 9#32] (by decide)).mpr (by decide +kernel)

/-- `add` takes an order of no shares. -/
theorem empty_order_live : ¬ ∀ cs : List OrderBook.Call, (∀ c ∈ cs, c.Fits) →
    Runs.Admitted OrderBook.step (fun b c => (b.step c).1.NothingEmpty) {} cs := by
  intro all
  have nothing := (all [.add 1#64 .buy 0#32 10000#32] (by decide)).1
  have checked : (OrderBook.step {} (.add 1#64 .buy 0#32 10000#32)).1.checkInvariants = false := by decide +kernel
  exact Bool.false_ne_true (checked.symm.trans nothing.checks)

end Nts.Book
