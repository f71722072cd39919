import Nts.Lib.Runs
import Nts.Book.PriceLevelsOps
import Nts.Book.PriceLevelsReads

/-!
# `PriceLevels` is a sorted map

The abstract side is a sorted map from price to (shares, orders) in unbounded
numbers. Every run of admitted calls reads the same on both.
-/

namespace Nts.Book

/-- One side as a plain sorted map: shares and orders at each price. -/
abbrev Ladder := Std.TreeMap (BitVec 32) (Nat × Nat)

namespace PriceLevels

/-- The calls that change a side. -/
inductive Call where
  | add (price shares : BitVec 32)
  | reduce (price shares : BitVec 32)
  | remove (price shares : BitVec 32)
  | reserve
  deriving DecidableEq

/-- One call on the implementation. -/
def step (s : PriceLevels) : Call → PriceLevels × Unit
  | .add price shares => (s.add price shares, ())
  | .reduce price shares => (s.reduce price shares, ())
  | .remove price shares => (s.remove price shares, ())
  | .reserve => (s.reserve, ())

end PriceLevels

namespace Ladder
open PriceLevels

/-- Shares and orders at a price, none at a price without a level. -/
def resting (m : Ladder) (price : BitVec 32) : Nat × Nat := m.getD price (0, 0)

/-- One call on the map. -/
def step (m : Ladder) : Call → Ladder × Unit
  | .add price shares => (m.insert price ((m.resting price).1 + shares.toNat, (m.resting price).2 + 1), ())
  | .reduce price shares => (m.insert price ((m.resting price).1 - shares.toNat, (m.resting price).2), ())
  | .remove price shares =>
    if (m.resting price).2 = 1 then (m.erase price, ())
    else (m.insert price ((m.resting price).1 - shares.toNat, (m.resting price).2 - 1), ())
  | .reserve => (m, ())

/-- No count overflows, and shares are only taken off a level that has them. -/
def Admits (m : Ladder) : Call → Prop
  | .add price shares => (m.resting price).1 + shares.toNat < 2 ^ 64 ∧ (m.resting price).2 + 1 < 2 ^ 32
  | .reduce price shares => 1 ≤ (m.resting price).2 ∧ shares.toNat ≤ (m.resting price).1
  | .remove price shares => 1 ≤ (m.resting price).2 ∧ shares.toNat ≤ (m.resting price).1
  | .reserve => True

instance (m : Ladder) : ∀ c, Decidable (m.Admits c)
  | .add .. => inferInstanceAs (Decidable (_ ∧ _))
  | .reduce .. => inferInstanceAs (Decidable (_ ∧ _))
  | .remove .. => inferInstanceAs (Decidable (_ ∧ _))
  | .reserve => inferInstanceAs (Decidable True)

/-- The entries, best first. -/
def listing (m : Ladder) : Side → List (BitVec 32 × Nat × Nat)
  | .buy => m.toList.reverse
  | .sell => m.toList

/-- The best entry: the highest price for buy, the lowest for sell. -/
def best (m : Ladder) : Side → Option (BitVec 32 × Nat × Nat)
  | .buy => m.toList.getLast?
  | .sell => m.toList.head?

theorem best_eq (m : Ladder) (side : Side) : m.best side = (m.listing side).head? := by
  cases side with
  | buy => rw [best, listing, List.head?_reverse]
  | sell => rfl

theorem resting_eq (m : Ladder) (p : BitVec 32) : m.resting p = (m[p]?).getD (0, 0) :=
  Std.TreeMap.getD_eq_getD_getElem?

theorem mem_listing (m : Ladder) (side : Side) (e : BitVec 32 × Nat × Nat) : e ∈ m.listing side ↔ m[e.1]? = some e.2 := by
  cases side with
  | buy =>
    rw [listing, List.mem_reverse]
    exact Std.TreeMap.mem_toList_iff_getElem?_eq_some
  | sell => exact Std.TreeMap.mem_toList_iff_getElem?_eq_some

theorem listing_sorted (m : Ladder) (s : PriceLevels) : (m.listing s.side).Pairwise fun a b => s.better a.1 b.1 := by
  cases side : s.side with
  | buy =>
    apply List.pairwise_reverse.mpr
    exact m.toList_sorted.imp fun less => by simpa [better, side] using less
  | sell => exact m.toList_sorted.imp fun less => by simpa [better, side] using less

end Ladder

/-- What a level says, in unbounded numbers. -/
def Level.reading (l : Level) : BitVec 32 × Nat × Nat := (l.price, l.shares.toNat, l.orders.toNat)

namespace PriceLevels

/-- The side stores exactly the map's levels. -/
structure Stores (s : PriceLevels) (m : Ladder) : Prop where
  inv : Inv s
  same : ∀ p, (s.level? p).map (fun l => (l.shares.toNat, l.orders.toNat)) = m[p]?

variable {s : PriceLevels} {m : Ladder}

theorem Stores.resting (stores : Stores s m) (p : BitVec 32) : m.resting p =
    (((s.level? p).getD {}).shares.toNat, ((s.level? p).getD {}).orders.toNat) := by
  rw [Ladder.resting_eq, ← stores.same]
  cases s.level? p <;> rfl

/-- A level the map has orders at is stored. -/
theorem Stores.stored (stores : Stores s m) {p : BitVec 32} (peopled : 1 ≤ (m.resting p).2) :
    ∃ l, s.level? p = .some l ∧ m.resting p = (l.shares.toNat, l.orders.toNat) := by
  have resting := stores.resting p
  cases stored : s.level? p with
  | none =>
    rw [stored] at resting
    rw [resting] at peopled
    exact absurd peopled (by decide)
  | some l =>
    rw [stored] at resting
    exact ⟨l, rfl, resting⟩

/-- An update at one price shows the map updated at that price. -/
theorem Stores.update (stores : Stores s m) {s' : PriceLevels} {m' : Ladder} (inv : Inv s') {p : BitVec 32}
    {l : Option Level} (level : s'.level? = Function.update s.level? p l)
    (entry : ∀ q, m'[q]? = if q = p then l.map (fun l => (l.shares.toNat, l.orders.toNat)) else m[q]?) : Stores s' m' := by
  refine ⟨inv, fun q => ?_⟩
  rw [level, entry, Function.update_apply]
  split
  · rfl
  · exact stores.same q

theorem Stores.step (stores : Stores s m) (c : Call) (ok : m.Admits c) : Stores (s.step c).1 (m.step c).1 := by
  cases c with
  | add price shares =>
    obtain ⟨sharesFit, ordersFit⟩ := ok
    have resting := stores.resting price
    rw [resting] at sharesFit ordersFit
    dsimp only at sharesFit ordersFit
    have room : ((s.level? price).getD {}).orders + 1#32 ≠ 0#32 := by bv_omega
    obtain ⟨inv, level⟩ := stores.inv.add shares room
    refine stores.update inv level fun q => ?_
    rw [Ladder.step, Std.TreeMap.getElem?_insert_ite, resting]
    congr 1
    simp only [credit, Option.map_some, Option.some.injEq, Prod.mk.injEq]
    constructor <;> bv_omega
  | reduce price shares =>
    obtain ⟨peopled, enough⟩ := ok
    obtain ⟨l, stored, resting⟩ := stores.stored peopled
    rw [resting] at peopled enough
    dsimp only at peopled enough
    obtain ⟨inv, level⟩ := stores.inv.reduce stored shares
    refine stores.update inv level fun q => ?_
    rw [Ladder.step, Std.TreeMap.getElem?_insert_ite, resting]
    congr 1
    simp only [Option.map_some, Option.some.injEq, Prod.mk.injEq, and_true]
    bv_omega
  | remove price shares =>
    obtain ⟨peopled, enough⟩ := ok
    obtain ⟨l, stored, resting⟩ := stores.stored peopled
    rw [resting] at peopled enough
    dsimp only at peopled enough
    obtain ⟨inv, level⟩ := stores.inv.remove stored shares
    refine stores.update inv level fun q => ?_
    rw [Ladder.step, resting]
    dsimp only
    by_cases last : l.orders.toNat = 1
    · have gone : l.orders - 1#32 = 0#32 := by bv_omega
      rw [if_pos last, if_pos gone, Std.TreeMap.getElem?_erase_ite]
      rfl
    · have stays : ¬ l.orders - 1#32 = 0#32 := by bv_omega
      rw [if_neg last, if_neg stays, Std.TreeMap.getElem?_insert_ite]
      congr 1
      simp only [Option.map_some, Option.some.injEq, Prod.mk.injEq]
      constructor <;> bv_omega
  | reserve =>
    obtain ⟨inv, level⟩ := stores.inv.reserve
    refine ⟨inv, fun p => ?_⟩
    change (s.reserve.level? p).map _ = m[p]?
    rw [level]
    exact stores.same p

theorem Stores.levels (stores : Stores s m) : s.levels.map Level.reading = m.listing s.side := by
  apply SortedLists.ext (fun a b => better_asymm (s := s) (a := a.1) (b := b.1)) (List.pairwise_map.mpr ?_)
    (m.listing_sorted s)
  · rintro ⟨p, e⟩
    rw [Ladder.mem_listing, ← stores.same, List.mem_map]
    constructor
    · rintro ⟨l, member, same⟩
      cases same
      rw [(stores.inv.mem_levels l).mp member]
      rfl
    · intro stored
      obtain ⟨l, here, rfl⟩ := Option.map_eq_some_iff.mp stored
      obtain ⟨rfl, _⟩ := stores.inv.level?_valid here
      exact ⟨l, (stores.inv.mem_levels l).mpr here, rfl⟩
  · exact stores.inv.levels_sorted

theorem step_side (s : PriceLevels) (c : Call) : (s.step c).1.side = s.side := by
  cases c with
  | add price shares => exact add_side s price shares
  | reduce price shares => exact reduce_side s price shares
  | remove price shares => exact remove_side s price shares
  | reserve => exact ensureCells_side s

/-- After every admitted run the side stores the map's levels. -/
theorem stores_run (side : Side) (referencePrice : BitVec 32) {tickSpan : BitVec 32} (least : 64 ≤ tickSpan.toNat)
    (multiple : tickSpan.toNat % 64 = 0) {cs : List Call} (run : Runs.Admitted Ladder.step Ladder.Admits ∅ cs) :
    Stores (Runs.after step (new side referencePrice tickSpan) cs) (Runs.after Ladder.step ∅ cs) ∧
      (Runs.after step (new side referencePrice tickSpan) cs).side = side := by
  obtain ⟨inv, empty⟩ := inv_new side referencePrice tickSpan least multiple
  have start : Stores (new side referencePrice tickSpan) ∅ := ⟨inv, fun p => by
    rw [empty, Option.map_none]
    exact Std.TreeMap.getElem?_emptyc.symm⟩
  refine (Runs.simulation (R := fun s m => Stores s m ∧ s.side = side) ?_ ⟨start, rfl⟩ run).1
  rintro s m c ⟨stores, same⟩ ok
  exact ⟨⟨stores.step c ok, (step_side s c).trans same⟩, rfl⟩

/-- **`PriceLevels` is a sorted map.** On both sides, for every reference price
and window size, after every admitted run: `size` is the map's size, `best` its
best entry and `levels` its entries, best first. -/
theorem levels_refine_map (side : Side) (referencePrice tickSpan : BitVec 32) (least : 64 ≤ tickSpan.toNat)
    (multiple : tickSpan.toNat % 64 = 0) (cs : List Call) (run : Runs.Admitted Ladder.step Ladder.Admits ∅ cs) :
    (Runs.after step (new side referencePrice tickSpan) cs).size = (Runs.after Ladder.step ∅ cs).size ∧
    (Runs.after step (new side referencePrice tickSpan) cs).best.map Level.reading =
      (Runs.after Ladder.step ∅ cs).best side ∧
    (Runs.after step (new side referencePrice tickSpan) cs).levels.map Level.reading =
      (Runs.after Ladder.step ∅ cs).listing side := by
  obtain ⟨stores, same⟩ := stores_run side referencePrice least multiple run
  have listed := stores.levels
  rw [same] at listed
  refine ⟨?_, ?_, listed⟩
  · rw [stores.inv.size_eq, ← List.length_map Level.reading, listed, ← Std.TreeMap.length_toList]
    cases side with
    | buy => exact List.length_reverse
    | sell => rfl
  · rw [Ladder.best_eq, ← listed, List.head?_map, stores.inv.best_eq]

/-- A run through the window, the map, a sub-penny price and re-centrings. -/
theorem levels_refine_map_run :
    ((Runs.after step (new .buy 0#32 64#32) [.add 10000#32 5#32, .reserve, .add 20000#32 7#32, .add 20001#32 2#32,
      .reduce 20000#32 3#32, .add 10000#32 1#32, .remove 20000#32 4#32]).levels.map Level.reading) =
      [(20001#32, 2, 1), (10000#32, 6, 2)] :=
  (levels_refine_map .buy 0#32 64#32 (by decide) (by decide) [.add 10000#32 5#32, .reserve, .add 20000#32 7#32,
    .add 20001#32 2#32, .reduce 20000#32 3#32, .add 10000#32 1#32, .remove 20000#32 4#32] (by decide +kernel)).2.2.trans
    (by decide +kernel)

end PriceLevels
end Nts.Book
