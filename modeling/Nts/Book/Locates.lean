import Nts.Book.Events

/-!
# Books by stock locate

The three containers of `BookSet` are shared and grow with the directory. `part` is what of
them belongs to one locate; a message changes the part of its own locate only
(`dispatch_separates`), so the messages of a locate alone decide its book.
-/

namespace Nts.Book
open Reading Itch

section
variable {α : Type}

/-- A resized container keeps its elements and is filled up behind them. -/
theorem getElem?_resize (xs : Array α) (n : Nat) (x : α) (i : Nat) :
    (resize xs n x)[i]? = if i < xs.size then xs[i]? else if i < n then some x else none := by
  unfold resize
  by_cases old : i < xs.size
  · rw [if_pos old, Array.getElem?_append_left old]
  · rw [if_neg old, Array.getElem?_append_right (by omega), Array.getElem?_replicate]
    split <;> split <;> first | rfl | omega

/-- Filling up with the default shows nothing new. -/
theorem getD_resize (xs : Array α) (n : Nat) (x : α) (i : Nat) : (resize xs n x).getD i x = xs.getD i x := by
  rw [Array.getD_eq_getD_getElem?, Array.getD_eq_getD_getElem?, getElem?_resize]
  by_cases old : i < xs.size
  · rw [if_pos old]
  · rw [if_neg old, Array.getElem?_eq_none (by omega)]
    split <;> rfl

theorem size_resize (xs : Array α) (n : Nat) (x : α) : (resize xs n x).size = max xs.size n := by
  rw [resize, Array.size_append, Array.size_replicate]
  omega

/-- A write at a locate shows at that locate only. -/
theorem getD_setIfInBounds (xs : Array α) (i j : BitVec 16) (x d : α) :
    (xs.setIfInBounds i.toNat x).getD j.toNat d = if i = j ∧ i.toNat < xs.size then x else xs.getD j.toNat d := by
  rw [Array.getD_eq_getD_getElem?, Array.getD_eq_getD_getElem?, Array.getElem?_setIfInBounds]
  by_cases here : i = j
  · subst here
    by_cases inside : i.toNat < xs.size
    · rw [if_pos rfl, if_pos inside, if_pos ⟨rfl, inside⟩]
      rfl
    · rw [if_pos rfl, if_neg inside, if_neg (fun both => inside both.2), Array.getElem?_eq_none (by omega)]
  · rw [if_neg (mt BitVec.eq_of_toNat_eq here), if_neg (fun both => here both.1)]

end

namespace BookSet
variable {s s' : BookSet} {msg : StockDirectory} {locate other : BitVec 16}

/-- The containers grow together, up to the last locate there is. -/
structure Sized (s : BookSet) : Prop where
  symbols : s.symbols.size = s.books.size
  knownLocates : s.knownLocates.size = s.books.size
  bounded : s.books.size ≤ 2 ^ 16

/-- What a book set has of one locate. -/
def part (s : BookSet) (locate : BitVec 16) : Bool × Stock × OrderBook := (s.known locate, s.symbol locate, s.book locate)

theorem sized_new : ({} : BookSet).Sized := ⟨rfl, rfl, by decide⟩

theorem known_eq (s : BookSet) (locate : BitVec 16) : s.known locate = s.knownLocates.getD locate.toNat false := by
  unfold known
  by_cases inside : locate.toNat < s.knownLocates.size
  · rw [decide_eq_true inside, Bool.true_and]
  · rw [decide_eq_false inside, Bool.false_and, Array.getD_eq_getD_getElem?, Array.getElem?_eq_none (by omega)]
    rfl

theorem lt_of_known (known : s.known locate = true) : locate.toNat < s.knownLocates.size := by
  rw [BookSet.known, Bool.and_eq_true] at known
  exact of_decide_eq_true known.1

/-! ## Directory messages -/

/-- The containers before the entry is written: long enough for it, and showing what they showed. -/
theorem onStockDirectory_grown (sized : s.Sized) (msg : StockDirectory) : ∃ grown : BookSet, grown.Sized ∧
    msg.header.stockLocate.toNat < grown.books.size ∧ (∀ i, grown.books.getD i {} = s.books.getD i {}) ∧
    (∀ i, grown.knownLocates.getD i false = s.knownLocates.getD i false) ∧
    (∀ i, i < s.symbols.size → grown.symbols.getD i [] = s.symbols.getD i []) ∧
    s.onStockDirectory msg = { grown with
      registered := s.registered + if s.known msg.header.stockLocate then 0 else 1
      symbols := grown.symbols.setIfInBounds msg.header.stockLocate.toNat msg.stock
      knownLocates := grown.knownLocates.setIfInBounds msg.header.stockLocate.toNat true } := by
  obtain ⟨symbols, knownLocates, bounded⟩ := sized
  unfold onStockDirectory
  rw [known_eq]
  by_cases short : msg.header.stockLocate.toNat ≥ s.books.size
  · refine ⟨⟨resize s.books (msg.header.stockLocate.toNat + 1) {},
      resize s.symbols (msg.header.stockLocate.toNat + 1) (List.replicate 8 0#8),
      resize s.knownLocates (msg.header.stockLocate.toNat + 1) false, s.registered⟩, ⟨?_, ?_, ?_⟩, ?_, getD_resize _ _ _,
      getD_resize _ _ _, ?_, ?_⟩
    · simp only [size_resize, symbols]
    · simp only [size_resize, knownLocates]
    · have last := msg.header.stockLocate.isLt
      rw [size_resize]
      omega
    · rw [size_resize]
      omega
    · intro i old
      rw [Array.getD_eq_getD_getElem?, Array.getD_eq_getD_getElem?, getElem?_resize, if_pos old]
    · dsimp only
      rw [if_pos short]
      simp only [getD_resize]
      split <;> rfl
  · refine ⟨s, ⟨symbols, knownLocates, bounded⟩, by omega, fun _ => rfl, fun _ => rfl, fun _ _ => rfl, ?_⟩
    dsimp only
    rw [if_neg short]
    split <;> rfl

theorem sized_onStockDirectory (sized : s.Sized) (msg : StockDirectory) : (s.onStockDirectory msg).Sized := by
  obtain ⟨grown, ⟨symbols, knownLocates, bounded⟩, _, _, _, _, eq⟩ := onStockDirectory_grown sized msg
  rw [eq]
  exact ⟨(Array.size_setIfInBounds ..).trans symbols, (Array.size_setIfInBounds ..).trans knownLocates, bounded⟩

/-- A directory message disturbs no book. -/
theorem book_onStockDirectory (sized : s.Sized) (msg : StockDirectory) (locate : BitVec 16) :
    (s.onStockDirectory msg).book locate = s.book locate := by
  obtain ⟨grown, _, _, books, _, _, eq⟩ := onStockDirectory_grown sized msg
  rw [eq]
  exact books locate.toNat

theorem known_onStockDirectory (sized : s.Sized) (msg : StockDirectory) (locate : BitVec 16) :
    (s.onStockDirectory msg).known locate = (decide (msg.header.stockLocate = locate) || s.known locate) := by
  obtain ⟨grown, ⟨_, knownLocates, _⟩, room, _, knowns, _, eq⟩ := onStockDirectory_grown sized msg
  rw [eq, known_eq, getD_setIfInBounds, knowns]
  by_cases here : msg.header.stockLocate = locate
  · rw [if_pos ⟨here, by omega⟩, decide_eq_true here, Bool.true_or]
  · rw [if_neg (fun both => here both.1), decide_eq_false here, Bool.false_or, known_eq]

theorem symbol_onStockDirectory (sized : s.Sized) (msg : StockDirectory) (locate : BitVec 16) :
    (s.onStockDirectory msg).symbol locate = if msg.header.stockLocate = locate then msg.stock else s.symbol locate := by
  have known := known_onStockDirectory sized msg locate
  obtain ⟨grown, ⟨symbols', _, _⟩, room, _, _, symbols, eq⟩ := onStockDirectory_grown sized msg
  obtain ⟨sameSymbols, sameKnown, _⟩ := sized
  rw [symbol, known, eq, getD_setIfInBounds]
  by_cases here : msg.header.stockLocate = locate
  · rw [decide_eq_true here, Bool.true_or, if_neg (by decide), if_pos ⟨here, by omega⟩, if_pos here]
  · have off : ¬ (msg.header.stockLocate = locate ∧ msg.header.stockLocate.toNat < grown.symbols.size) :=
      fun both => here both.1
    rw [decide_eq_false here, Bool.false_or, if_neg off, if_neg here, symbol]
    by_cases registered : s.known locate = true
    · have old := lt_of_known registered
      rw [symbols _ (by omega)]
    · rw [Bool.not_eq_true] at registered
      rw [registered, Bool.not_false, if_pos rfl, if_pos rfl]

theorem size_onStockDirectory (sized : s.Sized) (msg : StockDirectory) :
    (s.onStockDirectory msg).size = s.size + if s.known msg.header.stockLocate then 0 else 1 := by
  obtain ⟨grown, _, _, _, _, _, eq⟩ := onStockDirectory_grown sized msg
  rw [eq]
  rfl

/-! ## Calls on a book -/

theorem known_setBook (s : BookSet) (locate : BitVec 16) (b : OrderBook) (other : BitVec 16) :
    (s.setBook locate b).known other = s.known other := rfl

theorem symbol_setBook (s : BookSet) (locate : BitVec 16) (b : OrderBook) (other : BitVec 16) :
    (s.setBook locate b).symbol other = s.symbol other := rfl

theorem sized_setBook (sized : s.Sized) (locate : BitVec 16) (b : OrderBook) : (s.setBook locate b).Sized := by
  obtain ⟨symbols, knownLocates, bounded⟩ := sized
  refine ⟨?_, ?_, ?_⟩ <;> simpa only [setBook, Array.size_setIfInBounds]

/-- A change to a registered book is a change to that book only. -/
theorem book_setBook (sized : s.Sized) (known : s.known locate = true) (b : OrderBook) (other : BitVec 16) :
    (s.setBook locate b).book other = if locate = other then b else s.book other := by
  have inside := lt_of_known known
  have sameKnown := sized.knownLocates
  rw [book, setBook, getD_setIfInBounds]
  by_cases here : locate = other
  · rw [if_pos ⟨here, by omega⟩, if_pos here]
  · rw [if_neg (fun both => here both.1), if_neg here]
    rfl

end BookSet

/-! ## Events -/

/-- The event is for this locate, if for any. -/
def Event.At (locate : BitVec 16) : Event → Prop
  | .directory msg => msg.header.stockLocate = locate
  | .move locate' _ => locate' = locate
  | _ => True

theorem eventOf_at (mem : Memory) (mv : MessageView) : (eventOf mem mv).At (locateOf mem mv) := by
  unfold eventOf eventOfType
  cases MessageType.ofByte (mem mv.data) with
  | none => trivial
  | some type =>
    dsimp only
    split
    · simp only [Event.At, decodeStockDirectory, value_bind, value_pure]
      exact header_locate mem mv
    · cases callOf mem mv.data type with
      | none => trivial
      | some call => rfl

namespace BookSet
variable {s s' : BookSet} {e : Event} {locate : BitVec 16}

theorem sized_handle (sized : s.Sized) (e : Event) : (s.handle e).1.Sized := by
  cases e with
  | directory msg => exact sized_onStockDirectory sized msg
  | move locate call =>
    simp only [handle]
    split
    · exact sized_setBook sized locate _
    · exact sized
  | unknown => exact sized
  | quiet => exact sized

/-- An event for another locate leaves a part as it was. -/
theorem part_handle_other (sized : s.Sized) (here : e.At locate) {other : BitVec 16} (ne : locate ≠ other) :
    (s.handle e).1.part other = s.part other := by
  cases e with
  | directory msg =>
    have ne' : ¬ msg.header.stockLocate = other := fun eq => ne (here.symm.trans eq)
    simp only [handle, part, known_onStockDirectory sized, symbol_onStockDirectory sized, book_onStockDirectory sized, ne',
      decide_false, Bool.false_or, if_false]
  | move locate' call =>
    obtain rfl : locate' = locate := here
    simp only [handle]
    split
    · next known =>
      simp only [part, known_setBook, symbol_setBook, book_setBook sized known, ne, if_false]
    · rfl
  | unknown => rfl
  | quiet => rfl

/-- What an event does to the part of its own locate depends on that part only. -/
theorem part_handle_own (sized : s.Sized) (sized' : s'.Sized) (here : e.At locate) (same : s.part locate = s'.part locate) :
    (s.handle e).1.part locate = (s'.handle e).1.part locate := by
  obtain ⟨known, symbol, book⟩ := Prod.mk.injEq .. ▸ Prod.mk.injEq .. ▸ same
  cases e with
  | directory msg =>
    have eq : msg.header.stockLocate = locate := here
    simp only [handle, part, known_onStockDirectory sized, known_onStockDirectory sized', symbol_onStockDirectory sized,
      symbol_onStockDirectory sized', book_onStockDirectory sized, book_onStockDirectory sized', eq, if_true, book,
      decide_true, Bool.true_or]
  | move locate' call =>
    obtain rfl : locate' = locate := here
    simp only [handle, ← known, ← book]
    split
    · next registered =>
      have registered' : s'.known locate' = true := known ▸ registered
      simp only [part, known_setBook, symbol_setBook, book_setBook sized registered, book_setBook sized' registered',
        if_true, known, symbol]
    · exact same
  | unknown => exact same
  | quiet => exact same

/-- A message changes what belongs to its own locate, and nothing else. -/
theorem dispatch_separates (mem : Memory) : Runs.Separates (dispatch mem) Sized (locateOf mem) part where
  keeps := fun _ mv sized => sized_handle sized (eventOf mem mv)
  others := fun sized ne => part_handle_other sized (eventOf_at mem _) ne
  own := fun sized sized' same => part_handle_own sized sized' (eventOf_at mem _) same

end BookSet

/-! ## The directory -/

/-- The locate a directory message registers. -/
def directoryLocate (mem : Memory) (mv : MessageView) : Option (BitVec 16) :=
  match eventOf mem mv with
  | .directory msg => some msg.header.stockLocate
  | _ => none

/-- The set has registered exactly these locates. -/
structure BookSet.Registered (s : BookSet) (seen : Finset (BitVec 16)) : Prop where
  sized : s.Sized
  known : ∀ locate, s.known locate = true ↔ locate ∈ seen
  size : s.size = seen.card

theorem BookSet.registered_new : ({} : BookSet).Registered ∅ :=
  ⟨sized_new, fun _ => ⟨fun known => (by cases known), fun member => absurd member (Finset.notMem_empty _)⟩, rfl⟩

/-- One more message. -/
theorem BookSet.Registered.dispatch {s : BookSet} {seen : Finset (BitVec 16)} (registered : s.Registered seen)
    (mem : Memory) (mv : MessageView) :
    (s.dispatch mem mv).1.Registered (seen ∪ (directoryLocate mem mv).toFinset) := by
  obtain ⟨sized, known, size⟩ := registered
  unfold BookSet.dispatch directoryLocate
  cases eventOf mem mv with
  | directory msg =>
    refine ⟨sized_onStockDirectory sized msg, fun locate => ?_, ?_⟩
    · simp only [handle, known_onStockDirectory sized, Bool.or_eq_true, decide_eq_true_eq, known, Finset.mem_union,
        Option.mem_toFinset, Option.mem_some_iff, or_comm]
    · simp only [handle, size_onStockDirectory sized, size, Option.toFinset_some]
      by_cases old : s.known msg.header.stockLocate = true
      · rw [if_pos old, Finset.union_eq_left.mpr (Finset.singleton_subset_iff.mpr ((known _).mp old)), Nat.add_zero]
      · rw [if_neg old, Finset.card_union_of_disjoint (Finset.disjoint_singleton_right.mpr (mt (known _).mpr old)),
          Finset.card_singleton]
  | move locate call =>
    simp only [Option.toFinset_none, Finset.union_empty, handle]
    split
    · exact ⟨sized_setBook sized locate _, known, size⟩
    · exact ⟨sized, known, size⟩
  | unknown =>
    simp only [Option.toFinset_none, Finset.union_empty]
    exact ⟨sized, known, size⟩
  | quiet =>
    simp only [Option.toFinset_none, Finset.union_empty]
    exact ⟨sized, known, size⟩

theorem BookSet.Registered.run {s : BookSet} {seen : Finset (BitVec 16)} (registered : s.Registered seen)
    (mem : Memory) (mvs : List MessageView) :
    (Runs.after (BookSet.dispatch mem) s mvs).Registered (seen ∪ (mvs.filterMap (directoryLocate mem)).toFinset) := by
  induction mvs generalizing s seen with
  | nil =>
    rw [List.filterMap_nil, List.toFinset_nil, Finset.union_empty]
    exact registered
  | cons mv mvs ih =>
    have first : ((mv :: mvs).filterMap (directoryLocate mem)).toFinset =
        (directoryLocate mem mv).toFinset ∪ (mvs.filterMap (directoryLocate mem)).toFinset := by
      cases located : directoryLocate mem mv with
      | none => rw [List.filterMap_cons_none located, Option.toFinset_none, Finset.empty_union]
      | some locate =>
        rw [List.filterMap_cons_some located, List.toFinset_cons, Option.toFinset_some, Finset.insert_eq]
    rw [first, ← Finset.union_assoc]
    exact ih (registered.dispatch mem mv)

/-! ## Independence -/

/-- The books after some messages, from an empty table. -/
def booksAfter (mem : Memory) (mvs : List MessageView) : BookSet := (applyAll mem ({}, {}) mvs).1

/-- The messages of one locate. -/
def messagesOf (mem : Memory) (locate : BitVec 16) (mvs : List MessageView) : List MessageView :=
  mvs.filter fun mv => locateOf mem mv = locate

/-- Each locate's book is made by the locate's own messages. -/
structure LocatesIndependent (mem : Memory) (mvs : List MessageView) : Prop where
  /-- The other messages can be left out. -/
  alone : ∀ locate, (booksAfter mem mvs).part locate = (booksAfter mem (messagesOf mem locate mvs)).part locate
  /-- Messages of different locates can change places. -/
  reordered : ∀ mvs', (∀ locate, messagesOf mem locate mvs' = messagesOf mem locate mvs) →
    ∀ locate, (booksAfter mem mvs').part locate = (booksAfter mem mvs).part locate
  /-- One more directory message disturbs no book. -/
  directory : ∀ mv stats, (directoryLocate mem mv).isSome → ∀ locate,
    ((applyMessage (booksAfter mem mvs) mv stats).value mem).1.book locate = (booksAfter mem mvs).book locate
  /-- `size` counts the locates of the directory messages, each once. -/
  size : (booksAfter mem mvs).size = (mvs.filterMap (directoryLocate mem)).toFinset.card

theorem booksAfter_eq (mem : Memory) (mvs : List MessageView) :
    booksAfter mem mvs = Runs.after (BookSet.dispatch mem) {} mvs := applyAll_books _ _

/-- **Books of different locates are independent**, over every sequence of messages. -/
theorem locates_independent (mem : Memory) (mvs : List MessageView) : LocatesIndependent mem mvs := by
  have separates := BookSet.dispatch_separates mem
  have alone : ∀ (mvs : List MessageView) locate,
      (booksAfter mem mvs).part locate = (booksAfter mem (messagesOf mem locate mvs)).part locate := by
    intro mvs locate
    rw [booksAfter_eq, booksAfter_eq]
    exact separates.after_filter mvs BookSet.sized_new BookSet.sized_new rfl
  have registered := BookSet.registered_new.run mem mvs
  rw [Finset.empty_union, ← booksAfter_eq] at registered
  refine ⟨alone mvs, ?_, ?_, registered.size⟩
  · intro mvs' same locate
    rw [alone mvs' locate, same locate, ← alone mvs locate]
  · intro mv stats directory locate
    rw [applyMessage_value]
    unfold directoryLocate at directory
    unfold BookSet.dispatch
    cases event : eventOf mem mv with
    | directory msg => exact BookSet.book_onStockDirectory registered.sized msg locate
    | move locate call => rw [event] at directory; cases directory
    | unknown => rw [event] at directory; cases directory
    | quiet => rw [event] at directory; cases directory

end Nts.Book
