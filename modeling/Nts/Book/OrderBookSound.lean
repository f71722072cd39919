import Nts.Book.OrderBookChecks

/-!
# What a passed check of a book means

`check_invariants` is a test of a book that may have gone wrong, so nothing is assumed here about how the state came
to be: not that the index is a table that can be probed, nor that a ladder is placed. If arrays and bitmaps have their sizes and
32 bits count the orders, a passed check says that both sides show the orders of the index.
-/

namespace Nts.Book

namespace OrderBook

/-- One side shows the orders of the index: strictly best first, each price once, each level the sum of the
orders at its price, and the first level is the best. -/
structure ShowsOrders (b : OrderBook) (buy : Bool) : Prop where
  sorted : (b.ladder buy).levels.Pairwise fun l l' => (b.ladder buy).better l.price l'.price
  distinct : ((b.ladder buy).levels.map Level.price).Nodup
  prices : ∀ price, (∃ l ∈ (b.ladder buy).levels, l.price = price) ↔ b.liveAt buy price ≠ []
  sums : ∀ l ∈ (b.ladder buy).levels,
    l.shares.toNat = quantity (b.liveAt buy l.price) ∧ l.orders.toNat = (b.liveAt buy l.price).length
  best : (b.ladder buy).best = (b.ladder buy).levels.head?

end OrderBook

/-- A quantity has 32 bits. -/
theorem quantity_le (orders : List (BitVec 64 × Order)) : OrderBook.quantity orders ≤ orders.length * (2 ^ 32 - 1) := by
  rw [OrderBook.quantity, ← List.length_map (fun e : BitVec 64 × Order => e.2.qty.toNat), ← smul_eq_mul]
  apply List.sum_le_card_nsmul
  intro n member
  obtain ⟨e, _, rfl⟩ := List.mem_map.mp member
  have bound := e.2.qty.isLt
  omega

/-- The comparison of one side in its parts. -/
theorem sideMatches_parts {stored : PriceLevels} {computed : Std.TreeMap (BitVec 32) Level}
    (passes : OrderBook.sideMatches stored computed = true) :
    stored.checkInvariants = true ∧ stored.levels.length = computed.size ∧
      ∀ l ∈ stored.levels, ∃ l', computed[l.price]? = some l' ∧ l.shares = l'.shares ∧ l.orders = l'.orders := by
  unfold OrderBook.sideMatches at passes
  split at passes
  · cases passes
  · next checked =>
    split at passes
    · cases passes
    · next lengths =>
      refine ⟨by simpa using checked, not_not.mp lengths, fun l member => ?_⟩
      have passed := List.all_eq_true.mp passes l member
      split at passed
      · cases passed
      · split at passed
        · cases passed
        · next l' found =>
          rw [Bool.and_eq_true, beq_iff_eq, beq_iff_eq] at passed
          exact ⟨l', found, passed⟩

/-- As many levels as prices, each at one of the prices and no two at the same: a level at every price. -/
theorem prices_of_sideMatches {stored : PriceLevels} {computed : Std.TreeMap (BitVec 32) Level}
    (distinct : (stored.levels.map Level.price).Nodup) (lengths : stored.levels.length = computed.size)
    (found : ∀ l ∈ stored.levels, ∃ l', computed[l.price]? = some l') (price : BitVec 32) :
    (∃ l ∈ stored.levels, l.price = price) ↔ computed[price]?.isSome := by
  have inside : stored.levels.map Level.price ⊆ computed.keys := by
    intro p member
    obtain ⟨l, here, rfl⟩ := List.mem_map.mp member
    obtain ⟨l', stored'⟩ := found l here
    rw [Std.TreeMap.mem_keys, Std.TreeMap.mem_iff_isSome_getElem?, stored']
    rfl
  have perm : (stored.levels.map Level.price).Perm computed.keys := by
    apply (distinct.subperm inside).perm_of_length_le
    rw [Std.TreeMap.length_keys, List.length_map, lengths]
  rw [← Std.TreeMap.mem_iff_isSome_getElem?, ← Std.TreeMap.mem_keys, ← perm.mem_iff, List.mem_map]

/-- A side that passes the comparison with the rebuild shows the orders of the index. -/
theorem showsOrders_of_sideMatches {b : OrderBook} {buy : Bool} (arrays : (b.ladder buy).Arrays)
    (few : b.orders.entries.length < 2 ^ 32) (passes : OrderBook.sideMatches (b.ladder buy)
      (computedSide (b.orders.entries.foldl OrderBook.rebuild (∅, ∅)) buy) = true) : b.ShowsOrders buy := by
  obtain ⟨checks, lengths, same⟩ := sideMatches_parts passes
  have checked := (PriceLevels.checkInvariants_iff _).mp checks
  obtain ⟨sorted, best⟩ := checked.reads arrays
  have distinct : ((b.ladder buy).levels.map Level.price).Nodup := by
    apply List.pairwise_map.mpr
    apply sorted.imp
    intro l l' better equal
    rw [equal] at better
    exact PriceLevels.better_asymm better better
  have rebuilt := rebuilt_level b.orders.entries buy
  have here : ∀ price, ordersOf b.orders.entries buy price = b.liveAt buy price := fun _ => rfl
  refine ⟨sorted, distinct, fun price => ?_, fun l member => ?_, best⟩
  · have prices := prices_of_sideMatches distinct lengths (fun l member => (same l member).imp fun _ => And.left) price
    rw [prices, rebuilt, here, levelOf, Ne, ← List.length_eq_zero_iff]
    split <;> simp [*]
  · obtain ⟨l', found, shares, orders⟩ := same l member
    rw [rebuilt, here, levelOf] at found
    split at found
    · cases found
    · obtain rfl := Option.some.inj found
      have count : (b.liveAt buy l.price).length ≤ b.orders.entries.length := List.length_filter_le _ _
      have sum := quantity_le (b.liveAt buy l.price)
      rw [shares, orders, BitVec.toNat_ofNat, BitVec.toNat_ofNat, Nat.mod_eq_of_lt (by omega), Nat.mod_eq_of_lt (by omega)]
      exact ⟨rfl, rfl⟩

/-- **A passed check** of any book, however it came to be: with arrays and bitmaps of their sizes and fewer than 2^32
entries in the index both sides show the orders of the index, and the best levels are the first ones listed. -/
theorem checkInvariants_sound (b : OrderBook) (arrays : ∀ buy, (b.ladder buy).Arrays)
    (few : b.orders.entries.length < 2 ^ 32) (passes : b.checkInvariants = true) :
    (∀ buy, b.ShowsOrders buy) ∧ b.bestBid = b.bids.levels.head? ∧ b.bestAsk = b.asks.levels.head? := by
  rw [OrderBook.checkInvariants] at passes
  split at passes
  · cases passes
  · rw [Bool.and_eq_true] at passes
    have bids : b.ShowsOrders true := showsOrders_of_sideMatches (arrays true) few passes.1
    have asks : b.ShowsOrders false := showsOrders_of_sideMatches (arrays false) few passes.2
    exact ⟨Bool.forall_bool.mpr ⟨asks, bids⟩, bids.best, asks.best⟩

/-- No run leads to an index of two full slots; the check passes and both orders are shown. -/
theorem checkInvariants_sound_full : OrderBook.ShowsOrders
    ⟨⟨#[⟨1#64, 0x8000000A#32, 10000#32⟩, ⟨2#64, 0x80000003#32, 10101#32⟩], 0, 2, 0, 0⟩,
      ((PriceLevels.new .buy 0#32 64#32).add 10000#32 10#32).add 10101#32 3#32, .new .sell 0#32 64#32, 13#64, 13#64, 2#64⟩ true :=
  (checkInvariants_sound ⟨⟨#[⟨1#64, 0x8000000A#32, 10000#32⟩, ⟨2#64, 0x80000003#32, 10101#32⟩], 0, 2, 0, 0⟩,
      ((PriceLevels.new .buy 0#32 64#32).add 10000#32 10#32).add 10101#32 3#32, .new .sell 0#32 64#32, 13#64, 13#64, 2#64⟩
    (by decide +kernel) (by decide +kernel) (by decide +kernel)).1 true

end Nts.Book
