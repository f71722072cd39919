import Nts.Itch.Messages
import Nts.Book.OrderBook

/-!
# `BookSet` and `replay` (`book/book_set.h`, `book/book_set.cc`, `book/replay.h`, `book/replay.cc`)

The table of books by stock locate, the dispatch of one framed message, and the
walk over a whole buffer. Definitions only, in the source's order.

`std::deque` and `std::vector` are arrays that grow at the back. Counters are natural
numbers: none can reach 2^64 increments.
-/

namespace Nts.Book
open Reading Itch

structure BookSet where
  books : Array OrderBook := #[]
  symbols : Array Stock := #[]
  knownLocates : Array Bool := #[]
  registered : Nat := 0

/-- `resize(n)`: fill up to `n` elements at the back. -/
def resize {α : Type} (xs : Array α) (n : Nat) (x : α) : Array α := xs ++ Array.replicate (n - xs.size) x

namespace BookSet

/-- `on_stock_directory`. -/
def onStockDirectory (s : BookSet) (msg : StockDirectory) : BookSet :=
  let locate := msg.header.stockLocate.toNat
  let s :=
    if locate ≥ s.books.size then
      { s with
        books := resize s.books (locate + 1) {}
        symbols := resize s.symbols (locate + 1) (List.replicate 8 0#8)
        knownLocates := resize s.knownLocates (locate + 1) false }
    else s
  let s := if s.knownLocates.getD locate false then s else { s with registered := s.registered + 1 }
  { s with symbols := s.symbols.setIfInBounds locate msg.stock, knownLocates := s.knownLocates.setIfInBounds locate true }

/-- `book`, for a registered locate. -/
def book (s : BookSet) (locate : BitVec 16) : OrderBook := s.books.getD locate.toNat {}

/-- A change through the reference `book` returns. -/
def setBook (s : BookSet) (locate : BitVec 16) (b : OrderBook) : BookSet :=
  { s with books := s.books.setIfInBounds locate.toNat b }

/-- `known`. -/
def known (s : BookSet) (locate : BitVec 16) : Bool :=
  decide (locate.toNat < s.knownLocates.size) && s.knownLocates.getD locate.toNat false

/-- `symbol`; empty for an unregistered locate. -/
def symbol (s : BookSet) (locate : BitVec 16) : Stock :=
  if !s.known locate then [] else s.symbols.getD locate.toNat []

/-- `size`. -/
def size (s : BookSet) : Nat := s.registered

/-- `resting_shares`. -/
def restingShares (s : BookSet) : BitVec 64 := s.books.toList.foldl (fun total b => total + b.restingShares) 0#64

/-- `check_invariants_fast`. -/
def checkInvariantsFast (s : BookSet) : Bool := s.books.toList.all OrderBook.checkInvariantsFast

/-- `check_invariants`. -/
def checkInvariants (s : BookSet) : Bool :=
  if s.knownLocates.size ≠ s.books.size ∨ s.symbols.size ≠ s.books.size then false
  else (List.range s.books.size).all fun i =>
    !(s.knownLocates.getD i false && !(s.books.getD i {}).checkInvariants)

end BookSet

/-- `ReplayStats`. -/
structure ReplayStats where
  messages : Nat := 0
  unknownType : Nat := 0
  lengthMismatch : Nat := 0
  unknownLocate : Nat := 0
  applied : Nat := 0
  unknownRef : Nat := 0
  duplicateRef : Nat := 0
  clampedReduce : Nat := 0
  deriving DecidableEq, Repr

/-- `clean`. -/
def ReplayStats.clean (stats : ReplayStats) : Bool :=
  stats.lengthMismatch == 0 && stats.unknownLocate == 0 && stats.unknownRef == 0 && stats.duplicateRef == 0 &&
    stats.clampedReduce == 0

/-- `to_side`. -/
def toSide (c : BitVec 8) : Side := if c = .ofNat 8 'S'.toNat then .sell else .buy

/-- `tally`. -/
def tally (stats : ReplayStats) : ApplyResult → ReplayStats
  | .applied => { stats with applied := stats.applied + 1 }
  | .unknownRef => { stats with unknownRef := stats.unknownRef + 1 }
  | .duplicateRef => { stats with duplicateRef := stats.duplicateRef + 1 }
  | .clampedReduce => { stats with clampedReduce := stats.clampedReduce + 1 }

/-- The first `switch` of `apply_message`: the types that move a book. -/
def movesBook : MessageType → Bool
  | .addOrder | .addOrderMpid | .orderExecuted | .orderExecutedWithPrice | .orderCancel | .orderDelete
  | .orderReplace => true
  | _ => false

/-- The second `switch` of `apply_message`: decode the message and change the book it names. -/
def applyToBook (b : OrderBook) (type : MessageType) (p : Nat) : Reading (OrderBook × Option ApplyResult) :=
  match type with
  | .addOrder | .addOrderMpid => do
    let m ← decodeAddOrder p
    let (b, r) := b.add m.orderRef (toSide m.side) m.shares m.price
    pure (b, some r)
  | .orderExecuted | .orderExecutedWithPrice => do
    let m ← decodeOrderExecuted p
    let (b, r) := b.reduce m.orderRef m.executedShares
    pure (b, some r)
  | .orderCancel => do
    let m ← decodeOrderCancel p
    let (b, r) := b.reduce m.orderRef m.cancelledShares
    pure (b, some r)
  | .orderDelete => do
    let m ← decodeOrderDelete p
    let (b, r) := b.remove m.orderRef
    pure (b, some r)
  | .orderReplace => do
    let m ← decodeOrderReplace p
    let (b, r) := b.replace m.originalOrderRef m.newOrderRef m.shares m.price
    pure (b, some r)
  | _ => pure (b, none)

/-- `apply_message`. -/
def applyMessage (books : BookSet) (mv : MessageView) (stats : ReplayStats) : Reading (BookSet × ReplayStats) := do
  let stats := { stats with messages := stats.messages + 1 }
  let byte ← read mv.data
  match MessageType.ofByte byte with
  | none => pure (books, { stats with unknownType := stats.unknownType + 1 })
  | some type => do
    -- counted, and the message is decoded all the same
    let stats := if type.expectedLength ≠ mv.size then { stats with lengthMismatch := stats.lengthMismatch + 1 } else stats
    if type = .stockDirectory then do
      let m ← decodeStockDirectory mv.data
      pure (books.onStockDirectory m, stats)
    else if !movesBook type then pure (books, stats)
    else do
      let h ← decodeHeader mv.data
      if !books.known h.stockLocate then pure (books, { stats with unknownLocate := stats.unknownLocate + 1 })
      else do
        let (b, r) ← applyToBook (books.book h.stockLocate) type mv.data
        pure (books.setBook h.stockLocate b, match r with | some r => tally stats r | none => stats)

/-- `replay`. -/
def replay (books : BookSet) (data size : Nat) : Reading (BookSet × ReplayStats) := do
  let ((books, stats), _) ←
    Framer.walk (fun (books, stats) mv => applyMessage books mv stats) ⟨data, size, 0⟩ (books, {})
  pure (books, stats)

end Nts.Book
