import Nts.Common.OrderIndexMap
import Nts.Book.OrderBookParts

/-!
# The fast check

`check_invariants_fast` compares two totals that every call moves by the same word, and two
counts of orders. `Counted` says that they agree, and holds of every book whatever the quantities of the
calls were: also where a quantity runs into the side bit of its order.
-/

namespace Nts.Book
open OrderIndex

/-- What `check_invariants_fast` compares agrees. -/
structure OrderBook.Counted (b : OrderBook) : Prop where
  indexed : ∃ om, OrderIndex.Rep b.orders om
  shares : b.orderShares = b.levelShares
  orders : b.levelOrders = .ofNat 64 b.orders.size

namespace OrderBook

theorem counted_new : ({} : OrderBook).Counted := ⟨⟨∅, rep_new⟩, rfl, rfl⟩

/-- There are fewer than 2^64 references. -/
theorem card_keys_lt {om : OrderMap} (zero : 0#64 ∉ om) : om.keys.card < 2 ^ 64 := by
  have inside : ∀ ref ∈ om.keys, ref.toNat ∈ (Finset.range (2 ^ 64)).erase 0 := by
    intro ref member
    rw [Finset.mem_erase, Finset.mem_range]
    refine ⟨fun eq => zero ?_, ref.isLt⟩
    rw [← BitVec.eq_of_toNat_eq (x := ref) (y := 0#64) eq]
    exact Finmap.mem_keys.mp member
  have bound := Finset.card_le_card_of_injOn BitVec.toNat inside fun _ _ _ _ eq => BitVec.eq_of_toNat_eq eq
  rw [Finset.card_erase_of_mem (Finset.mem_range.mpr (Nat.two_pow_pos 64)), Finset.card_range] at bound
  have positive : 0 < 2 ^ 64 := Nat.two_pow_pos 64
  omega

variable {b b' : OrderBook}

theorem Counted.checkInvariantsFast (counted : b.Counted) : b.checkInvariantsFast = true := by
  obtain ⟨om, rep⟩ := counted.indexed
  have small := card_keys_lt rep.zero_notMem
  rw [← rep.size] at small
  rw [OrderBook.checkInvariantsFast, counted.shares, counted.orders, BitVec.toNat_ofNat, Nat.mod_eq_of_lt small]
  simp only [BEq.rfl, Bool.and_self]

theorem Parts.counted {orders : OrderIndex} {buy : Bool} {f : PriceLevels → PriceLevels} {t : Totals}
    (parts : Parts b b' orders buy f t) {om : OrderMap} (rep : OrderIndex.Rep orders om) (shares : t.1 = t.2.1)
    (count : t.2.2 = .ofNat 64 om.keys.card) : b'.Counted := by
  have totals := parts.totals
  refine ⟨⟨om, parts.orders ▸ rep⟩, ?_, ?_⟩
  · exact (congrArg Prod.fst totals).trans (shares.trans (congrArg (fun t => t.2.1) totals).symm)
  · rw [parts.orders, rep.size, ← count, ← totals]
    rfl

theorem card_keys_insert {om : OrderMap} {ref : BitVec 64} (absent : ref ∉ om) (o : Order) :
    (om.insert ref o).keys.card = 1 + om.keys.card := by
  rw [← Finmap.total_one, ← Finmap.total_one, Finmap.total_insert_new absent]

theorem card_keys_erase {om : OrderMap} {ref : BitVec 64} {o : Order} (live : om.lookup ref = some o) :
    om.keys.card = 1 + (om.erase ref).keys.card := by
  rw [← Finmap.total_one, ← Finmap.total_one, Finmap.total_of_lookup live]

theorem Counted.add (counted : b.Counted) (ref : BitVec 64) (side : Side) (shares price : BitVec 32) :
    (b.add ref side shares price).1.Counted := by
  obtain ⟨⟨om, rep⟩, sums, count⟩ := counted
  by_cases refused : ref = 0#64 ∨ ref ∈ om
  · obtain ⟨flag, rep'⟩ := rep.insert_refused refused shares price (side == .buy)
    rw [add_refused flag]
    exact ⟨⟨om, rep'⟩, sums, count.trans (by rw [rep.size, rep'.size])⟩
  · obtain ⟨nonzero, absent⟩ := not_or.mp refused
    obtain ⟨flag, rep'⟩ := rep.insert_accepted nonzero absent shares price (side == .buy)
    refine (add_inserted flag).2.counted rep' ?_ ?_
    · rw [sums]
    · rw [card_keys_insert absent, count, rep.size]
      bv_omega

theorem Counted.remove (counted : b.Counted) (ref : BitVec 64) : (b.remove ref).1.Counted := by
  obtain ⟨⟨om, rep⟩, sums, count⟩ := counted
  cases found : b.orders.find ref with
  | none =>
    rw [remove_absent found]
    exact ⟨⟨om, rep⟩, sums, count⟩
  | some i =>
    have live := rep.lookup_of_find found
    refine (remove_found found).2.counted (rep.erase_live live).2 ?_ ?_
    · rw [sums]
    · rw [count, rep.size, card_keys_erase live]
      bv_omega

theorem Counted.reduce (counted : b.Counted) (ref : BitVec 64) (shares : BitVec 32) : (b.reduce ref shares).1.Counted := by
  obtain ⟨⟨om, rep⟩, sums, count⟩ := counted
  cases found : b.orders.find ref with
  | none =>
    rw [reduce_absent found]
    exact ⟨⟨om, rep⟩, sums, count⟩
  | some i =>
    have live := rep.lookup_of_find found
    have again : ∀ o : Order, (om.insert ref o).keys.card = om.keys.card := by
      intro o
      rw [card_keys_erase live, ← Finmap.total_one, ← Finmap.total_one, Finmap.total_insert]
    by_cases dies : (b.orders.orderAt i).qty.toNat ≤ shares.toNat
    · have written := rep.setShares live found (packShares 0#32 (b.orders.orderAt i).buy)
      have stored := Finmap.lookup_insert (a := ref) (b := { b.orders.orderAt i with
        shares := packShares 0#32 (b.orders.orderAt i).buy }) om
      refine (reduce_dies found dies).2.counted (written.erase_live stored).2 ?_ ?_
      · rw [sums]
      · rw [Finmap.erase_insert_self, count, rep.size, card_keys_erase live]
        bv_omega
    · refine (reduce_stays found (by omega)).2.counted (rep.setShares live found _) ?_ ?_
      · rw [sums]
      · rw [again, count, rep.size]

/-- No call on a book, with whatever quantity, breaks the fast check. -/
theorem Counted.step (counted : b.Counted) (c : Call) : (b.step c).1.Counted := by
  cases c with
  | add ref side shares price => exact counted.add ref side shares price
  | reduce ref shares => exact counted.reduce ref shares
  | remove ref => exact counted.remove ref
  | replace originalRef newRef shares price =>
    change (b.replace originalRef newRef shares price).1.Counted
    cases found : b.orders.find originalRef with
    | none =>
      rw [replace_absent found]
      exact counted
    | some i =>
      by_cases taken : newRef ≠ originalRef ∧ (b.orders.find newRef).isSome
      · rw [replace_taken found taken]
        exact counted
      · rw [replace_free found taken]
        exact (counted.remove originalRef).add newRef _ shares price

end OrderBook
end Nts.Book
