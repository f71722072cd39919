import Nts.Lib.Bitmap
import Nts.Lib.SortedLists
import Nts.Lib.TreeMapFacts

/-!
# `PriceLevels` (`book/price_levels.h`, `book/price_levels.cc`, `book/level.h`)

One side of a book: an array of one-cent cells around a reference price with an
occupancy bitmap and a cached best cell, plus a sorted map for every other price.
Definitions only, in the source's order.

`std::map` is `Std.TreeMap`, iterated through its sorted list; vectors are arrays.
A cell number of -1 is `none`. Reads outside an array give an empty cell and
writes outside it do nothing; that neither happens on a reachable state is part
of the invariant (`PriceLevelsInv.lean`).
-/

namespace Nts.Book

/-- `Side`. -/
inductive Side where
  | buy
  | sell
  deriving DecidableEq, Repr

/-- `Level`: one price level, aggregated. -/
structure Level where
  price : BitVec 32 := 0
  shares : BitVec 64 := 0
  orders : BitVec 32 := 0
  deriving DecidableEq, Repr

/-- `kTick`: one cent, in price units. -/
def kTick : BitVec 32 := 100#32

/-- `kNoBase`. -/
def kNoBase : BitVec 32 := 0xFFFFFFFF#32

/-- `kDefaultSpan`. -/
def kDefaultSpan : BitVec 32 := 1024#32

structure PriceLevels where
  side : Side
  span : BitVec 32
  baseCents : BitVec 32 := kNoBase
  cells : Array Level := #[]
  bits : Array (BitVec 64) := #[]
  arrayCount : Nat := 0
  bestCell : Option Nat := none
  far : Std.TreeMap (BitVec 32) Level := ∅
  rebases : Nat := 0

namespace PriceLevels

/-- The base that puts `centre` in the middle of a window of `span` cells, clipped at price zero. -/
def baseAround (span centre : BitVec 32) : BitVec 32 :=
  if centre > span / 2#32 then centre - span / 2#32 else 0#32

/-- The constructor. -/
def new (side : Side) (referencePrice tickSpan : BitVec 32) : PriceLevels :=
  { side
    span := tickSpan
    baseCents :=
      if referencePrice ≠ 0#32 ∧ referencePrice % kTick = 0#32 then baseAround tickSpan (referencePrice / kTick)
      else kNoBase }

/-- `better`. -/
def better (s : PriceLevels) (a b : BitVec 32) : Bool :=
  match s.side with
  | .buy => decide (a > b)
  | .sell => decide (a < b)

/-- `cell_of`: the cell for `price`, if it is a whole cent inside the window. -/
def cellOf (s : PriceLevels) (price : BitVec 32) : Option Nat :=
  if s.baseCents = kNoBase ∨ price % kTick ≠ 0#32 then none
  else
    let cents := price / kTick
    if cents < s.baseCents ∨ cents - s.baseCents ≥ s.span then none
    else some (cents - s.baseCents).toNat

/-- The best entry of `far_`: its key is `far_best_price`, its value what `best` returns from the map. -/
def farBest (s : PriceLevels) : Option (BitVec 32 × Level) :=
  match s.side with
  | .buy => s.far.toList.getLast?
  | .sell => s.far.toList.head?

/-- The read `cells_[i]`. -/
def cellAt (s : PriceLevels) (i : Nat) : Level := s.cells.getD i {}

/-- The write `cells_[i] = l`. -/
def setCell (s : PriceLevels) (i : Nat) (l : Level) : PriceLevels := { s with cells := s.cells.setIfInBounds i l }

/-- `set_bit`. -/
def setBit (s : PriceLevels) (i : Nat) : PriceLevels := { s with bits := Bitmap.set s.bits i }

/-- `clear_bit`. -/
def clearBit (s : PriceLevels) (i : Nat) : PriceLevels := { s with bits := Bitmap.clear s.bits i }

/-- `scan_best`. -/
def scanBest (s : PriceLevels) : Option Nat :=
  match s.side with
  | .buy => Bitmap.last s.bits
  | .sell => Bitmap.first s.bits

/-- `ensure_cells`. -/
def ensureCells (s : PriceLevels) : PriceLevels :=
  if s.cells.isEmpty then
    { s with cells := Array.replicate s.span.toNat {}, bits := Array.replicate (s.span.toNat / 64) 0#64 }
  else s

/-- `reserve`. -/
def reserve (s : PriceLevels) : PriceLevels := s.ensureCells

/-- The test `best_cell_ < 0 || better(price, cells_[best_cell_].price)`. -/
def beatsBest (s : PriceLevels) (price : BitVec 32) : Bool :=
  match s.bestCell with
  | none => true
  | some b => s.better price (s.cellAt b).price

/-- `place`: puts a whole level wherever it belongs given the current base. -/
def place (s : PriceLevels) (l : Level) : PriceLevels :=
  match s.cellOf l.price with
  | none => { s with far := s.far.insert l.price l }
  | some i =>
    let s := (s.setCell i l).setBit i
    let s := { s with arrayCount := s.arrayCount + 1 }
    if s.beatsBest l.price then { s with bestCell := some i } else s

/-- The gathering loop of `rebase` over the array: the levels of the set bits in
walk order, each cell blanked as it is read. -/
def gatherCells (s : PriceLevels) : List Level × Array Level :=
  (Bitmap.up s.bits).foldl (fun acc i => (acc.1 ++ [acc.2.getD i {}], acc.2.setIfInBounds i {})) ([], s.cells)

/-- `rebase` between gathering and putting back: nothing stored, the window around the new centre. -/
def emptied (s : PriceLevels) (centrePrice : BitVec 32) : PriceLevels :=
  let gathered := if s.cells.isEmpty then ([], s.cells) else s.gatherCells
  let s := { s with cells := gathered.2, far := ∅ }
  let s := s.ensureCells
  { s with
    bits := Array.replicate (s.span.toNat / 64) 0#64
    arrayCount := 0
    bestCell := none
    baseCents := baseAround s.span (centrePrice / kTick)
    rebases := s.rebases + 1 }

/-- Everything `rebase` gathers: the array, then the map. -/
def gathered (s : PriceLevels) : List Level :=
  (if s.cells.isEmpty then [] else s.gatherCells.1) ++ s.far.toList.map Prod.snd

/-- `rebase`. -/
def rebase (s : PriceLevels) (centrePrice : BitVec 32) : PriceLevels := s.gathered.foldl place (s.emptied centrePrice)

/-- The first statement of `add`: the first whole-cent price fixes the window. -/
def setBase (s : PriceLevels) (price : BitVec 32) : PriceLevels :=
  if s.baseCents = kNoBase ∧ price % kTick = 0#32 then { s with baseCents := baseAround s.span (price / kTick) } else s

/-- The part of `add` for a cell that held no level. -/
def openCell (s : PriceLevels) (i : Nat) (price : BitVec 32) : PriceLevels :=
  let s := (s.setCell i { s.cellAt i with price }).setBit i
  let s := { s with arrayCount := s.arrayCount + 1 }
  if s.beatsBest price then { s with bestCell := some i } else s

/-- `add`. -/
def add (s : PriceLevels) (price shares : BitVec 32) : PriceLevels :=
  let s := s.setBase price
  match s.cellOf price with
  | some i =>
    let s := s.ensureCells
    let s := if (s.cellAt i).orders = 0#32 then s.openCell i price else s
    let l := s.cellAt i
    s.setCell i { l with shares := l.shares + shares.setWidth 64, orders := l.orders + 1#32 }
  | none =>
    let l := s.far.getD price {}
    let s := { s with far := s.far.insert price ⟨price, l.shares + shares.setWidth 64, l.orders + 1#32⟩ }
    if price % kTick = 0#32 ∧ s.beatsBest price then s.rebase price else s

/-- `reduce`. -/
def reduce (s : PriceLevels) (price shares : BitVec 32) : PriceLevels :=
  match s.cellOf price with
  | some i =>
    let l := s.cellAt i
    s.setCell i { l with shares := l.shares - shares.setWidth 64 }
  | none =>
    match s.far[price]? with
    | some l => { s with far := s.far.insert price { l with shares := l.shares - shares.setWidth 64 } }
    | none => s

/-- The part of `remove` that runs when a cell has lost its last order. -/
def closeCell (s : PriceLevels) (i : Nat) : PriceLevels :=
  let s := (s.setCell i { s.cellAt i with shares := 0#64 }).clearBit i
  let s := { s with arrayCount := s.arrayCount - 1 }
  if s.bestCell = some i then
    let s := { s with bestCell := s.scanBest }
    match s.farBest with
    | some (fb, _) => if fb % kTick = 0#32 ∧ s.beatsBest fb then s.rebase fb else s
    | none => s
  else s

/-- `remove`. -/
def remove (s : PriceLevels) (price shares : BitVec 32) : PriceLevels :=
  match s.cellOf price with
  | some i =>
    let l := s.cellAt i
    let s := s.setCell i { l with shares := l.shares - shares.setWidth 64, orders := l.orders - 1#32 }
    if (s.cellAt i).orders = 0#32 then s.closeCell i else s
  | none =>
    match s.far[price]? with
    | none => s
    | some l =>
      if l.orders - 1#32 = 0#32 then { s with far := s.far.erase price }
      else
        { s with far := s.far.insert price { l with shares := l.shares - shares.setWidth 64, orders := l.orders - 1#32 } }

/-- `best`. -/
def best (s : PriceLevels) : Option Level :=
  match s.bestCell with
  | some b =>
    match s.farBest with
    | some (fb, l) => if s.better fb (s.cellAt b).price then some l else some (s.cellAt b)
    | none => some (s.cellAt b)
  | none => s.farBest.map Prod.snd

/-- The array part of `levels`, best first. -/
def arrayLevels (s : PriceLevels) : List Level :=
  if s.cells.isEmpty then []
  else match s.side with
    | .buy => (Bitmap.down s.bits).map s.cellAt
    | .sell => (Bitmap.up s.bits).map s.cellAt

/-- The map part of `levels`, best first. -/
def farLevels (s : PriceLevels) : List Level :=
  match s.side with
  | .buy => s.far.toList.reverse.map Prod.snd
  | .sell => s.far.toList.map Prod.snd

/-- `levels`: the two parts merged in one pass. -/
def levels (s : PriceLevels) : List Level :=
  SortedLists.merge (fun a f => s.better a.price f.price) s.arrayLevels s.farLevels

/-- `size`. -/
def size (s : PriceLevels) : Nat := s.arrayCount + s.far.size

/-- The loop of `check_invariants` over the cells: the number of occupied cells, `none` if one fails its checks. -/
def countCells (s : PriceLevels) : List Nat → Nat → Option Nat
  | [], counted => some counted
  | i :: is, counted =>
    let bit := Bitmap.test s.bits i
    let occ := (s.cellAt i).orders != 0#32
    if bit != occ then none
    else if occ then
      if (s.cellAt i).shares = 0#64 then none
      else if s.cellOf (s.cellAt i).price ≠ some i then none
      else countCells s is (counted + 1)
    else countCells s is counted

/-- `check_invariants`. -/
def checkInvariants (s : PriceLevels) : Bool :=
  match s.countCells (List.range s.cells.size) 0 with
  | none => false
  | some counted =>
    if counted ≠ s.arrayCount then false
    else if s.scanBest ≠ s.bestCell then false
    else s.far.toList.all fun (price, level) =>
      if level.orders = 0#32 ∨ level.shares = 0#64 ∨ level.price ≠ price then false
      else (s.cellOf price).isNone

end PriceLevels
end Nts.Book
