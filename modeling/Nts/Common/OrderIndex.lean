import Nts.Lib.LinearProbe

/-!
# `OrderIndex` (`common/flat_hash_map.h`)

Order reference to resting order: open addressing, linear probing, no
tombstones. Definitions only, in the source's order.

`slots_` is an array, and a slot number is a natural number: the model's memory
is unbounded, `std::vector` never refuses to grow. A pointer to a found order is
the number of its slot. Reference 0 marks an empty slot. The three probe loops
are `LinearProbe.seek` with one round of fuel; that they always end within it is a theorem
(`OrderIndexInv.lean`), not an assumption of the definitions. Assertions are
compiled out.
-/

namespace Nts

/-- `OrderIndex::Order`: low 31 bits of `shares` are the quantity, bit 31 set means buy. -/
structure Order where
  shares : BitVec 32 := 0
  price : BitVec 32 := 0
  deriving DecidableEq, Repr

/-- `kSideBit`. -/
def kSideBit : BitVec 32 := 0x80000000#32

/-- `Order::qty`. -/
def Order.qty (o : Order) : BitVec 32 := o.shares &&& ~~~kSideBit

/-- `Order::buy`. -/
def Order.buy (o : Order) : Bool := o.shares &&& kSideBit != 0#32

/-- `OrderIndex::Slot`; `ref` 0 means empty. -/
structure Slot where
  ref : BitVec 64 := 0
  order : Order := {}
  deriving DecidableEq, Repr

/-- The key and order of an occupied slot. -/
def Slot.content (s : Slot) : Option (BitVec 64 × Order) :=
  if s.ref = 0#64 then none else some (s.ref, s.order)

structure OrderIndex where
  slots : Array Slot := #[]
  mask : Nat := 0
  size : Nat := 0
  growAt : Nat := 0
  rehashes : Nat := 0
  deriving DecidableEq, Repr

namespace OrderIndex

/-- `kInitial`. -/
def kInitial : Nat := 256

/-- `capacity()`. -/
def capacity (t : OrderIndex) : Nat := t.slots.size

/-- The read `slots_[i]`. -/
def slotAt (t : OrderIndex) (i : Nat) : Slot := t.slots.getD i {}

/-- The order a pointer returned by `find` points to. -/
def orderAt (t : OrderIndex) (i : Nat) : Order := (t.slotAt i).order

/-- `home_slot` of a table with mask `mask`. -/
def homeOf (mask : Nat) (ref : BitVec 64) : Nat :=
  let h := ref * 0x9E3779B97F4A7C15#64
  (h ^^^ (h >>> 32)).toNat &&& mask

/-- `home_slot`. -/
def homeSlot (t : OrderIndex) (ref : BitVec 64) : Nat := homeOf t.mask ref

/-- `(i + 1) & mask_`. -/
def next (t : OrderIndex) (i : Nat) : Nat := (i + 1) &&& t.mask

/-- The probe loop of `insert`, `find` and `erase`: forward from the home slot
to the first slot that is empty or holds `ref`. -/
def probe (t : OrderIndex) (ref : BitVec 64) : Option Nat :=
  LinearProbe.seek (fun i => (t.slotAt i).ref == 0#64 || (t.slotAt i).ref == ref) t.next t.capacity (t.homeSlot ref)

/-- The reinsertion loop of `grow`: forward from the home slot to the first empty slot. -/
def probeEmpty (t : OrderIndex) (ref : BitVec 64) : Option Nat :=
  LinearProbe.seek (fun i => (t.slotAt i).ref == 0#64) t.next t.capacity (t.homeSlot ref)

/-- One round of `grow`'s loop over the old slots. -/
def reinsert (t : OrderIndex) (s : Slot) : OrderIndex :=
  if s.ref = 0#64 then t
  else match t.probeEmpty s.ref with
    | some i => { t with slots := t.slots.setIfInBounds i s, size := t.size + 1 }
    | none => t

/-- The empty table `grow` moves the old slots into. -/
def fresh (t : OrderIndex) : OrderIndex :=
  let next := if t.slots.isEmpty then kInitial else t.slots.size * 2
  { slots := Array.replicate next {}
    mask := next - 1
    growAt := next - next / 4
    size := 0
    rehashes := if t.slots.isEmpty then t.rehashes else t.rehashes + 1 }

/-- `grow`: doubling rebuild. -/
def grow (t : OrderIndex) : OrderIndex := t.slots.toList.foldl reinsert t.fresh

/-- The shares word `insert` stores: the quantity with the side in bit 31. -/
def packShares (qty : BitVec 32) (buy : Bool) : BitVec 32 := if buy then qty ||| kSideBit else qty

/-- The growth test of `insert`. -/
def ensureRoom (t : OrderIndex) : OrderIndex := if t.size + 1 > t.growAt then t.grow else t

/-- `insert`. -/
def insert (t : OrderIndex) (ref : BitVec 64) (qty price : BitVec 32) (buy : Bool) : OrderIndex × Bool :=
  if ref = 0#64 then (t, false)
  else
    let t := t.ensureRoom
    match t.probe ref with
    | some i =>
      if (t.slotAt i).ref = 0#64 then
        ({ t with slots := t.slots.setIfInBounds i ⟨ref, packShares qty buy, price⟩, size := t.size + 1 }, true)
      else (t, false)
    | none => (t, false)

/-- `find`: the slot of a live `ref`. -/
def find (t : OrderIndex) (ref : BitVec 64) : Option Nat :=
  if t.size = 0 then none
  else match t.probe ref with
    | some i => if (t.slotAt i).ref = 0#64 then none else some i
    | none => none

/-- The write `order_p->shares = shares` through a pointer returned by `find`. -/
def setShares (t : OrderIndex) (i : Nat) (shares : BitVec 32) : OrderIndex :=
  { t with slots := t.slots.setIfInBounds i { t.slotAt i with order := { t.orderAt i with shares } } }

/-- `(a - b) & mask_`, the distance from slot `b` forward to slot `a`. The
subtraction is written so that it stays a natural number; `ringSub_eq_machine` is the 64-bit one. -/
def ringSub (mask a b : Nat) : Nat := (a + (mask + 1) - b) &&& mask

/-- The loop of `backward_shift`, entered with the hole at `hole` and the last position looked at `j`. -/
def shiftLoop (mask : Nat) : Nat → Array Slot → Nat → Nat → Option (Array Slot)
  | 0, _, _, _ => none
  | fuel + 1, slots, hole, j =>
    let j := (j + 1) &&& mask
    let s := slots.getD j {}
    if s.ref = 0#64 then some (slots.setIfInBounds hole {})
    else
      let home := homeOf mask s.ref
      let distJ := ringSub mask j hole
      let distHome := ringSub mask home hole
      if distHome ≤ distJ ∧ distHome ≠ 0 then shiftLoop mask fuel slots hole j
      else shiftLoop mask fuel (slots.setIfInBounds hole s) j j

/-- `backward_shift`: closes the hole at `hole`. -/
def backwardShift (t : OrderIndex) (hole : Nat) : OrderIndex :=
  match shiftLoop t.mask t.capacity t.slots hole hole with
  | some slots => { t with slots }
  | none => t

/-- `erase`. -/
def erase (t : OrderIndex) (ref : BitVec 64) : OrderIndex × Bool :=
  if t.size = 0 then (t, false)
  else match t.probe ref with
    | some i =>
      if (t.slotAt i).ref = 0#64 then (t, false)
      else ({ t.backwardShift i with size := t.size - 1 }, true)
    | none => (t, false)

/-- The calls `for_each` makes, in slot order. -/
def entries (t : OrderIndex) : List (BitVec 64 × Order) := t.slots.toList.filterMap Slot.content

end OrderIndex
end Nts
