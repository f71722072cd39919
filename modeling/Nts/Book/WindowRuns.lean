import Nts.Lib.Runs
import Nts.Book.OrderBookParts
import Nts.Book.Window

/-!
# The window over whole runs

Every call on a book makes at most one removal on a ladder. The ladders follow the market through a whole
run exactly when none of these removals strands its ladder. The calls may have any references, quantities and
prices.
-/

namespace Nts.Book.OrderBook

/-- Everything that changes a book. -/
inductive Operation where
  | call (c : Call)
  | reserve
  deriving DecidableEq, Repr

/-- One operation on a book. -/
def operate (b : OrderBook) : Operation → OrderBook × Option ApplyResult
  | .call c => ((b.step c).1, some (b.step c).2)
  | .reserve => (b.reserve, none)

/-- The side and price at which a call takes an order off a ladder. -/
def removal (b : OrderBook) : Call → Option (Bool × BitVec 32)
  | .add .. => none
  | .reduce ref shares => do
    let i ← b.orders.find ref
    if (b.orders.orderAt i).qty.toNat ≤ shares.toNat then
      some ((b.orders.orderAt i).buy, (b.orders.orderAt i).price)
    else none
  | .remove ref => do
    let i ← b.orders.find ref
    some ((b.orders.orderAt i).buy, (b.orders.orderAt i).price)
  | .replace originalRef newRef .. => do
    let i ← b.orders.find originalRef
    if newRef ≠ originalRef ∧ (b.orders.find newRef).isSome then none
    else some ((b.orders.orderAt i).buy, (b.orders.orderAt i).price)

/-- The removal of the call strands its ladder. -/
def Strands (b : OrderBook) (c : Call) : Prop := ∃ r ∈ b.removal c, (b.ladder r.1).Strands r.2

/-- The operation strands a ladder. -/
def StrandsIn (b : OrderBook) : Operation → Prop
  | .call c => b.Strands c
  | .reserve => False

/-- The books an operation goes through: a replacement has removed the original when it adds the new order. -/
def stages (b : OrderBook) : Operation → List OrderBook
  | .call (.replace originalRef newRef shares price) =>
    if (b.removal (.replace originalRef newRef shares price)).isSome then
      [(b.remove originalRef).1, (b.replace originalRef newRef shares price).1]
    else [(b.replace originalRef newRef shares price).1]
  | o => [(b.operate o).1]

variable {b b' : OrderBook}

/-- The last of them is the result. -/
theorem operate_mem_stages (b : OrderBook) (o : Operation) : (b.operate o).1 ∈ b.stages o := by
  unfold stages
  split
  · split
    · exact List.mem_cons_of_mem _ List.mem_cons_self
    · exact List.mem_cons_self
  · exact List.mem_cons_self

/-- What both ladders keep. -/
def Windowed (b : OrderBook) : Prop := ∀ buy, (b.ladder buy).Windowed

/-- Both ladders follow the market. -/
def FollowsMarket (b : OrderBook) : Prop := ∀ buy, (b.ladder buy).FollowsMarket

theorem windowed_new : ({} : OrderBook).Windowed ∧ ({} : OrderBook).FollowsMarket := by
  have empty : ∀ side, (PriceLevels.new side 0#32 kDefaultSpan).Windowed ∧
      (PriceLevels.new side 0#32 kDefaultSpan).FollowsMarket := by
    intro side
    obtain ⟨inv, fresh⟩ := PriceLevels.inv_new side 0#32 kDefaultSpan (by decide) (by decide)
    refine ⟨inv.windowed, inv.marks.followsMarket_iff_centred.mpr fun p tops => ?_⟩
    have here := tops.1
    rw [inv.listed_eq, fresh] at here
    cases here
  exact ⟨fun buy => by cases buy <;> exact (empty _).1, fun buy => by cases buy <;> exact (empty _).2⟩

/-- One call on one ladder. -/
theorem Parts.followsMarket {orders : OrderIndex} {buy : Bool} {f : PriceLevels → PriceLevels} {t : Totals}
    (parts : Parts b b' orders buy f t) (windowed : b.Windowed) (kept : (f (b.ladder buy)).Windowed) :
    b'.Windowed ∧ (b.FollowsMarket → (b'.FollowsMarket ↔ (f (b.ladder buy)).Centred)) := by
  refine ⟨fun buy' => ?_, fun follows => ⟨fun follows' => ?_, fun centred buy' => ?_⟩⟩
  · rw [parts.ladder]
    split
    · exact kept
    · exact windowed buy'
  · have own := follows' buy
    rw [parts.ladder, if_pos rfl] at own
    exact kept.toMarks.followsMarket_iff_centred.mp own
  · rw [parts.ladder]
    split
    · exact kept.toMarks.followsMarket_iff_centred.mpr centred
    · exact follows buy'

theorem FollowsMarket.centred (follows : b.FollowsMarket) (windowed : b.Windowed) (buy : Bool) : (b.ladder buy).Centred :=
  (windowed buy).toMarks.followsMarket_iff_centred.mp (follows buy)

theorem Windowed.add (windowed : b.Windowed) (ref : BitVec 64) (side : Side) (shares price : BitVec 32) :
    (b.add ref side shares price).1.Windowed ∧ (b.FollowsMarket → (b.add ref side shares price).1.FollowsMarket) := by
  cases flag : (b.orders.insert ref shares price (side == .buy)).2 with
  | false =>
    rw [add_refused flag]
    exact ⟨windowed, id⟩
  | true =>
    obtain ⟨kept, centred, _⟩ := (windowed (side == .buy)).add price shares
    obtain ⟨windowed', follows⟩ := (add_inserted flag).2.followsMarket windowed kept
    exact ⟨windowed', fun before => (follows before).mpr (centred (before.centred windowed _))⟩

/-- A removal on a ladder, as part of a call. -/
theorem Parts.removes {orders : OrderIndex} {buy : Bool} {price shares : BitVec 32} {t : Totals} {c : Call}
    (parts : Parts b b' orders buy (fun s => s.remove price shares) t) (removal : b.removal c = some (buy, price))
    (windowed : b.Windowed) : b'.Windowed ∧ (b.FollowsMarket → (b'.FollowsMarket ↔ ¬ b.Strands c)) := by
  obtain ⟨kept, centred⟩ := (windowed buy).remove price shares
  obtain ⟨windowed', follows⟩ := parts.followsMarket windowed kept
  refine ⟨windowed', fun before => ?_⟩
  rw [follows before, centred (before.centred windowed buy), Strands, removal]
  refine not_congr ⟨fun strands => ⟨_, rfl, strands⟩, ?_⟩
  rintro ⟨_, ⟨⟩, strands⟩
  exact strands

/-- A call that removes nothing strands nothing. -/
theorem not_strands {c : Call} (keeps : b.removal c = none) : ¬ b.Strands c := by
  rintro ⟨r, removal, _⟩
  rw [keeps] at removal
  cases removal

theorem Windowed.remove (windowed : b.Windowed) (ref : BitVec 64) :
    (b.remove ref).1.Windowed ∧ (b.FollowsMarket → ((b.remove ref).1.FollowsMarket ↔ ¬ b.Strands (.remove ref))) := by
  cases found : b.orders.find ref with
  | none =>
    rw [remove_absent found]
    exact ⟨windowed, fun follows => iff_of_true follows (not_strands (by simp [removal, found]))⟩
  | some i => exact (remove_found found).2.removes (by simp [removal, found]) windowed

theorem Windowed.reduce (windowed : b.Windowed) (ref : BitVec 64) (shares : BitVec 32) :
    (b.reduce ref shares).1.Windowed ∧
      (b.FollowsMarket → ((b.reduce ref shares).1.FollowsMarket ↔ ¬ b.Strands (.reduce ref shares))) := by
  cases found : b.orders.find ref with
  | none =>
    rw [reduce_absent found]
    exact ⟨windowed, fun follows => iff_of_true follows (not_strands (by simp [removal, found]))⟩
  | some i =>
    by_cases dies : (b.orders.orderAt i).qty.toNat ≤ shares.toNat
    · exact (reduce_dies found dies).2.removes (by simp [removal, found, dies]) windowed
    · obtain ⟨kept, centred⟩ := (windowed (b.orders.orderAt i).buy).reduce (b.orders.orderAt i).price shares
      obtain ⟨windowed', follows⟩ := (reduce_stays found (by omega)).2.followsMarket windowed kept
      refine ⟨windowed', fun before => iff_of_true ?_ (not_strands (by simp [removal, found, dies]))⟩
      exact (follows before).mpr (centred (before.centred windowed _))

/-- A replacement goes through a removal. -/
theorem Windowed.replace (windowed : b.Windowed) (originalRef newRef : BitVec 64) (shares price : BitVec 32) :
    (∀ b' ∈ b.stages (.call (.replace originalRef newRef shares price)), b'.Windowed) ∧ (b.FollowsMarket →
      ((∀ b' ∈ b.stages (.call (.replace originalRef newRef shares price)), b'.FollowsMarket) ↔
        ¬ b.Strands (.replace originalRef newRef shares price))) := by
  cases removal : b.removal (.replace originalRef newRef shares price) with
  | none =>
    have same : (b.replace originalRef newRef shares price).1 = b := by
      cases found : b.orders.find originalRef with
      | none => rw [replace_absent found]
      | some i =>
        by_cases taken : newRef ≠ originalRef ∧ (b.orders.find newRef).isSome
        · rw [replace_taken found taken]
        · simp [OrderBook.removal, found, taken] at removal
    have stages : b.stages (.call (.replace originalRef newRef shares price)) = [b] := by
      simp only [OrderBook.stages, removal, same]
      rfl
    rw [stages]
    simp only [List.mem_singleton, forall_eq]
    exact ⟨windowed, fun follows => iff_of_true follows (not_strands removal)⟩
  | some r =>
    have stages : b.stages (.call (.replace originalRef newRef shares price)) =
        [(b.remove originalRef).1, (b.replace originalRef newRef shares price).1] := by
      simp only [OrderBook.stages, removal]
      rfl
    cases found : b.orders.find originalRef with
    | none => simp [OrderBook.removal, found] at removal
    | some i =>
      by_cases taken : newRef ≠ originalRef ∧ (b.orders.find newRef).isSome
      · simp [OrderBook.removal, found, taken] at removal
      · have same : b.Strands (.replace originalRef newRef shares price) ↔ b.Strands (.remove originalRef) := by
          rw [Strands, Strands]
          simp [OrderBook.removal, found, taken]
        obtain ⟨removed, first⟩ := windowed.remove originalRef
        obtain ⟨added, second⟩ := removed.add newRef (if (b.orders.orderAt i).buy then .buy else .sell) shares price
        rw [stages, replace_free found taken, same]
        simp only [List.forall_mem_cons, List.not_mem_nil, false_implies, implies_true, and_true]
        refine ⟨⟨removed, added⟩, fun follows => ?_⟩
        rw [← first follows]
        exact and_iff_left_of_imp second

theorem Windowed.reserve (windowed : b.Windowed) : b.reserve.Windowed ∧ (b.FollowsMarket → b.reserve.FollowsMarket) := by
  have ladder : ∀ buy, b.reserve.ladder buy = (b.ladder buy).reserve := by
    intro buy
    cases buy <;> rfl
  have kept := fun buy => (windowed buy).reserve
  refine ⟨fun buy => ladder buy ▸ (kept buy).1, fun follows buy => ?_⟩
  rw [ladder, (kept buy).1.toMarks.followsMarket_iff_centred]
  exact (kept buy).2 (follows.centred windowed buy)

/-- The ladders follow the market through an operation exactly when it strands none. -/
theorem Windowed.stages (windowed : b.Windowed) (o : Operation) : (b.operate o).1.Windowed ∧
    (b.FollowsMarket → ((∀ b' ∈ b.stages o, b'.FollowsMarket) ↔ ¬ b.StrandsIn o)) := by
  cases o with
  | reserve =>
    obtain ⟨windowed', follows⟩ := windowed.reserve
    refine ⟨windowed', fun before => iff_of_true ?_ id⟩
    exact List.forall_mem_singleton.mpr (follows before)
  | call c =>
    cases c with
    | add ref side shares price =>
      obtain ⟨windowed', follows⟩ := windowed.add ref side shares price
      refine ⟨windowed', fun before => iff_of_true ?_ (not_strands rfl)⟩
      exact List.forall_mem_singleton.mpr (follows before)
    | reduce ref shares =>
      obtain ⟨windowed', follows⟩ := windowed.reduce ref shares
      exact ⟨windowed', fun before => List.forall_mem_singleton.trans (follows before)⟩
    | remove ref =>
      obtain ⟨windowed', follows⟩ := windowed.remove ref
      exact ⟨windowed', fun before => List.forall_mem_singleton.trans (follows before)⟩
    | replace originalRef newRef shares price =>
      obtain ⟨windowed', follows⟩ := windowed.replace originalRef newRef shares price
      exact ⟨windowed' _ (operate_mem_stages b _), follows⟩

/-- **The window follows the market** through a run exactly when no removal of the run strands its ladder: takes the
last order of a level of the map, behind which the best of the map is a whole-cent price that beats the cached cell. -/
theorem followsMarket_iff (os : List Operation) :
    Runs.Admitted operate (fun b o => ∀ b' ∈ b.stages o, b'.FollowsMarket) {} os ↔
      Runs.Admitted operate (fun b o => ¬ b.StrandsIn o) {} os := by
  apply Runs.admitted_congr fun b => b.Windowed ∧ b.FollowsMarket
  · intro b o _ inv
    exact (inv.1.stages o).2 inv.2
  · intro b o _ inv follows
    exact ⟨(inv.1.stages o).1, follows _ (operate_mem_stages b o)⟩
  · exact windowed_new

/-- Three orders to buy: at 100.00, at 50.00 outside the window, and at a sub-penny price between them. The first and
the third are deleted. -/
def farBehindSubPenny : List Operation :=
  [.call (.add 1#64 .buy 1#32 1000000#32), .call (.add 2#64 .buy 1#32 500000#32), .call (.add 3#64 .buy 1#32 999999#32),
    .call (.remove 1#64), .call (.remove 3#64)]

/-- The order at 50.00 becomes the best while its level stays in the map. -/
theorem whole_cent_best_in_map : ¬ ∀ os : List Operation,
    Runs.Admitted operate (fun b o => ∀ b' ∈ b.stages o, b'.FollowsMarket) {} os := by
  intro all
  obtain ⟨_, _, _, _, last, _⟩ := all farBehindSubPenny
  have follows := last _ (operate_mem_stages _ _) true
  obtain ⟨b, cached, _⟩ := follows.inArray ⟨500000#32, 1#64, 1#32⟩ (by decide +kernel) (by decide)
  have uncached : ((Runs.after operate {} farBehindSubPenny).ladder true).bestCell = none := by decide +kernel
  exact absurd (cached.symm.trans uncached) (by simp)

end Nts.Book.OrderBook
