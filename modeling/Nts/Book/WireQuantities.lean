import Nts.Book.RefSet

/-!
# Quantities from the wire

A quantity shares a word with the side of its order, and `OrderIndex::insert` asserts that
bit 31 is free. Nothing between the wire and that assertion looks at the bit: what reaches it
is what the message says. While the messages respect it the table follows its
reference, and every order keeps its side and quantity.
-/

namespace Nts.Book
open Reading Itch

/-- The quantity with which a call reaches `OrderIndex::insert`. -/
def OrderBook.inserted (b : OrderBook) : OrderBook.Call → Option (BitVec 32)
  | .add _ _ shares _ => some shares
  | .replace originalRef newRef shares _ =>
    if (b.orders.find originalRef).isSome ∧ ¬ (newRef ≠ originalRef ∧ (b.orders.find newRef).isSome) then some shares
    else none
  | _ => none

/-- The book has the orders of the ledger, with their sides and quantities, and books them on their sides. -/
structure Keeps (b : OrderBook) (m : RefBook) : Prop where
  /-- A live order is found with its side, quantity and price. -/
  found : ∀ ref o, m.lookup ref = some o → ∃ i, b.orders.find ref = some i ∧ restingOf (b.orders.orderAt i) = o
  absent : ∀ ref, ref ∉ m → b.orders.find ref = none
  /-- `shares_of` is the order's quantity. -/
  sharesOf : ∀ ref, (b.sharesOf ref).toNat = m.sharesOf ref
  /-- An accepted `add` credits the side of the message. -/
  added : ∀ ref side shares price, ref ≠ 0#64 → ref ∉ m → ∀ buy, (b.add ref side shares price).1.ladder buy =
    if sideOf buy = side then (b.ladder buy).add price shares else b.ladder buy
  /-- `remove` debits the order's side by the order's quantity. -/
  removed : ∀ ref o, m.lookup ref = some o → ∀ buy, (b.remove ref).1.ladder buy =
    if sideOf buy = o.side then (b.ladder buy).remove (.ofNat 32 o.price) (.ofNat 32 o.qty) else b.ladder buy
  /-- `reduce` debits the order's side, by no more than the order's quantity. -/
  reduced : ∀ ref o, m.lookup ref = some o → ∀ shares buy, (b.reduce ref shares).1.ladder buy =
    if sideOf buy = o.side then
      if o.qty ≤ shares.toNat then (b.ladder buy).remove (.ofNat 32 o.price) (.ofNat 32 o.qty)
      else (b.ladder buy).reduce (.ofNat 32 o.price) shares
    else b.ladder buy
  /-- An accepted `replace` removes the original and adds the new order on the original's side. -/
  replaced : ∀ originalRef newRef o shares price, m.lookup originalRef = some o →
    ¬ (newRef ≠ originalRef ∧ newRef ∈ m) →
      b.replace originalRef newRef shares price = (b.remove originalRef).1.add newRef o.side shares price

section
variable {b : OrderBook} {m : RefBook}

theorem Indexes.isSome_find (indexes : Indexes b.orders m) (ref : BitVec 64) :
    (b.orders.find ref).isSome = true ↔ ref ∈ m := by
  by_cases member : ref ∈ m
  · obtain ⟨o, live⟩ := Finmap.mem_iff.mp member
    obtain ⟨i, found, _⟩ := indexes.found live
    rw [found]
    exact ⟨fun _ => member, fun _ => rfl⟩
  · rw [indexes.find_absent member]
    exact ⟨fun isSome => (by cases isSome), fun inside => (member inside).elim⟩

/-- What reaches `insert` can be told from the live orders. -/
theorem Indexes.inserted (indexes : Indexes b.orders m) (c : OrderBook.Call) : b.inserted c = m.inserted c := by
  cases c with
  | replace originalRef newRef shares price =>
    simp only [OrderBook.inserted, RefBook.inserted, indexes.isSome_find]
  | add ref side shares price => rfl
  | reduce ref shares => rfl
  | remove ref => rfl

theorem sideOf_eq_iff (buy : Bool) (side : Side) : sideOf buy = side ↔ buy = (side == .buy) := by
  cases buy <;> cases side <;> decide

theorem Tracks.keeps (tracks : Tracks b m) : Keeps b m where
  found := by
    intro ref o live
    obtain ⟨i, found, reads, _⟩ := tracks.indexes.find_live live
    exact ⟨i, found, reads⟩
  absent := fun ref => tracks.indexes.find_absent
  sharesOf := tracks.indexes.sharesOf
  added := by
    intro ref side shares price nonzero absent buy
    obtain ⟨om, rep, same⟩ := tracks.indexes.packed
    obtain ⟨flag, _⟩ := rep.insert_accepted nonzero (mt (Indexes.mem_iff same).mpr absent) shares price (side == .buy)
    rw [(OrderBook.add_inserted flag).2.ladder]
    simp only [sideOf_eq_iff]
    split
    · next eq => rw [eq]
    · rfl
  removed := by
    intro ref o live buy
    obtain ⟨i, found, side, qty, price⟩ := tracks.indexes.found live
    rw [(OrderBook.remove_found found).2.ladder, qty, price, side, BitVec.ofNat_toNat, BitVec.ofNat_toNat,
      BitVec.setWidth_eq, BitVec.setWidth_eq]
    by_cases own : buy = (b.orders.orderAt i).buy
    · rw [if_pos own, if_pos (congrArg sideOf own), own]
    · rw [if_neg own, if_neg (fun eq => own (sideOf_injective eq))]
  reduced := by
    intro ref o live shares buy
    obtain ⟨i, found, side, qty, price⟩ := tracks.indexes.found live
    rw [qty, price, side, BitVec.ofNat_toNat, BitVec.ofNat_toNat, BitVec.setWidth_eq, BitVec.setWidth_eq]
    by_cases dies : (b.orders.orderAt i).qty.toNat ≤ shares.toNat
    · rw [(OrderBook.reduce_dies found dies).2.ladder, if_pos dies]
      by_cases own : buy = (b.orders.orderAt i).buy
      · rw [if_pos own, if_pos (congrArg sideOf own), own]
      · rw [if_neg own, if_neg (fun eq => own (sideOf_injective eq))]
    · rw [(OrderBook.reduce_stays found (by omega)).2.ladder, if_neg dies]
      by_cases own : buy = (b.orders.orderAt i).buy
      · rw [if_pos own, if_pos (congrArg sideOf own), own]
      · rw [if_neg own, if_neg (fun eq => own (sideOf_injective eq))]
  replaced := by
    intro originalRef newRef o shares price live free
    obtain ⟨i, found, side, _⟩ := tracks.indexes.found live
    rw [← tracks.indexes.isSome_find newRef] at free
    rw [OrderBook.replace_free found free, side, sideOf]

end

/-! ## Runs of messages -/

/-- The reference after some messages, from an empty table. -/
def referenceAfter (mem : Memory) (mvs : List MessageView) : RefSet := Runs.after (RefSet.dispatch mem) {} mvs

/-- Over the messages no quantity that reaches `insert` has bit 31 set, and every book keeps the orders of its ledger. -/
structure KeepsOrders (mem : Memory) (mvs : List MessageView) : Prop where
  clear : ∀ v ∈ visits (fun s mv => (BookSet.dispatch mem s mv).1) {} mvs, ∀ locate call,
    eventOf mem v.2 = .move locate call → v.1.known locate = true →
      ∀ shares ∈ (v.1.book locate).inserted call, shares &&& kSideBit = 0#32
  kept : ∀ locate, Keeps ((booksAfter mem mvs).book locate) ((referenceAfter mem mvs).book locate)

theorem and_kSideBit (shares : BitVec 32) : shares &&& kSideBit = 0#32 ↔ shares.toNat < 2 ^ 31 := by
  have word : kSideBit = BitVec.twoPow 32 31 := by decide
  have high : shares.toNat < 2 ^ 31 ↔ shares.getLsbD 31 = false := by
    rw [← Bool.not_eq_true, ← BitVec.msb_eq_getLsbD_last, BitVec.msb_eq_decide, decide_eq_true_iff]
    omega
  rw [high, word, BitVec.and_twoPow]
  cases shares.getLsbD 31 <;> decide

section
variable {mem : Memory} {s : BookSet} {r : RefSet}

/-- The assertion holds of an event on the books exactly when the event is small for their reference. -/
theorem Refines.clear_iff (refines : Refines Tracks s r) (e : Event) : r.Small e ↔ ∀ locate call,
    e = .move locate call → s.known locate = true → ∀ shares ∈ (s.book locate).inserted call, shares &&& kSideBit = 0#32 := by
  cases e with
  | move locate call =>
    simp only [RefSet.Small, ← refines.known, ← (refines.book locate).indexes.inserted, ← and_kSideBit]
    constructor
    · rintro small _ _ ⟨⟩
      exact small
    · intro clear
      exact clear locate call rfl
  | directory msg => exact ⟨fun _ _ _ eq => (by cases eq), fun _ => trivial⟩
  | unknown => exact ⟨fun _ _ _ eq => (by cases eq), fun _ => trivial⟩
  | quiet => exact ⟨fun _ _ _ eq => (by cases eq), fun _ => trivial⟩

variable (mem) in
/-- The assertion holds along a run exactly when the reference admits the run, and then the table follows it. -/
theorem Refines.run (refines : Refines Tracks s r) (mvs : List MessageView) :
    ((∀ v ∈ visits (fun s mv => (BookSet.dispatch mem s mv).1) s mvs, ∀ locate call,
      eventOf mem v.2 = .move locate call → v.1.known locate = true →
        ∀ shares ∈ (v.1.book locate).inserted call, shares &&& kSideBit = 0#32) ↔
      Runs.Admitted (RefSet.dispatch mem) (fun r mv => r.Small (eventOf mem mv)) r mvs) ∧
    (Runs.Admitted (RefSet.dispatch mem) (fun r mv => r.Small (eventOf mem mv)) r mvs →
      Refines Tracks (Runs.after (BookSet.dispatch mem) s mvs) (Runs.after (RefSet.dispatch mem) r mvs)) := by
  induction mvs generalizing s r with
  | nil => exact ⟨⟨fun _ => trivial, fun _ v visited => (List.not_mem_nil visited).elim⟩, fun _ => refines⟩
  | cons mv mvs ih =>
    have here := refines.clear_iff (eventOf mem mv)
    rw [visits, List.forall_mem_cons, ← here]
    constructor
    · apply and_congr_right
      intro small
      exact (ih (refines.track small).1).1
    · rintro ⟨small, later⟩
      exact (ih (refines.track small).1).2 later

end

/-- **Quantities up to bit 31.** Over every sequence of messages the assertion in `insert`
holds and all orders keep their sides and quantities, exactly when every message that asks a registered
book for a new order has a quantity below 2^31. -/
theorem keepsOrders_iff (mem : Memory) (mvs : List MessageView) : KeepsOrders mem mvs ↔
    Runs.Admitted (RefSet.dispatch mem) (fun r mv => r.Small (eventOf mem mv)) {} mvs := by
  obtain ⟨clear, follows⟩ := (refines_new tracks_new).run mem mvs
  constructor
  · intro keeps
    exact clear.mp keeps.clear
  · intro small
    refine ⟨clear.mpr small, fun locate => ?_⟩
    rw [booksAfter_eq]
    exact ((follows small).book locate).keeps

/-- A directory message for locate 1, and an order of 2^31 shares for sale. -/
def halfWordOrder : Memory := memoryOf
  ([.ofNat 8 'R'.toNat, 0, 1] ++ List.replicate 36 0#8 ++
    [.ofNat 8 'A'.toNat, 0, 1] ++ List.replicate 15 0#8 ++ [7, .ofNat 8 'S'.toNat, 128, 0, 0, 0] ++ List.replicate 12 0#8)

/-- Messages of their table length can carry a quantity with bit 31 set into `insert`. -/
theorem half_word_order_reaches_insert : ¬ ∀ (mem : Memory) (mvs : List MessageView),
    (∀ mv ∈ mvs, mismatched mem mv = false) → KeepsOrders mem mvs := by
  intro all
  have keeps := all halfWordOrder [⟨0, 39⟩, ⟨39, 36⟩] (by decide +kernel)
  have clear := keeps.clear (_, ⟨39, 36⟩) (List.mem_cons_of_mem _ List.mem_cons_self) 1#16
    (.add 7#64 .sell 0x80000000#32 0#32) (by decide +kernel) (by decide +kernel) 0x80000000#32 rfl
  exact absurd clear (by decide)

end Nts.Book
