import Nts.Itch.Framing

/-!
# Messages (`itch/message_type.h`, `itch/messages.h`, `itch/decoder.cc`)

The type bytes with their table lengths, and the decoders of the messages a
book acts on. A decoder reads its fields at fixed offsets from its pointer and checks
nothing. The trade and system event decoders feed no book and are left out.
-/

namespace Nts.Itch
open Reading

/-- `MessageType`. -/
inductive MessageType where
  | systemEvent
  | stockDirectory
  | stockTradingAction
  | regShoRestriction
  | marketParticipantPos
  | addOrder
  | addOrderMpid
  | orderExecuted
  | orderExecutedWithPrice
  | orderCancel
  | orderDelete
  | orderReplace
  | tradeNonCross
  | tradeCross
  | brokenTrade
  deriving DecidableEq, Repr

namespace MessageType

/-- The enumerator's value. -/
def code : MessageType → BitVec 8
  | systemEvent => .ofNat 8 'S'.toNat
  | stockDirectory => .ofNat 8 'R'.toNat
  | stockTradingAction => .ofNat 8 'H'.toNat
  | regShoRestriction => .ofNat 8 'Y'.toNat
  | marketParticipantPos => .ofNat 8 'L'.toNat
  | addOrder => .ofNat 8 'A'.toNat
  | addOrderMpid => .ofNat 8 'F'.toNat
  | orderExecuted => .ofNat 8 'E'.toNat
  | orderExecutedWithPrice => .ofNat 8 'C'.toNat
  | orderCancel => .ofNat 8 'X'.toNat
  | orderDelete => .ofNat 8 'D'.toNat
  | orderReplace => .ofNat 8 'U'.toNat
  | tradeNonCross => .ofNat 8 'P'.toNat
  | tradeCross => .ofNat 8 'Q'.toNat
  | brokenTrade => .ofNat 8 'B'.toNat

/-- The enumerators, in the order of `is_known`. -/
def all : List MessageType :=
  [systemEvent, stockDirectory, stockTradingAction, regShoRestriction, marketParticipantPos, addOrder, addOrderMpid,
    orderExecuted, orderExecutedWithPrice, orderCancel, orderDelete, orderReplace, tradeNonCross, tradeCross, brokenTrade]

/-- The enumerator a byte is cast to; `none` for the bytes `is_known` refuses. -/
def ofByte (b : BitVec 8) : Option MessageType := all.find? fun t => t.code == b

/-- `expected_length`. -/
def expectedLength : MessageType → Nat
  | systemEvent => 12
  | stockDirectory => 39
  | stockTradingAction => 25
  | regShoRestriction => 20
  | marketParticipantPos => 26
  | addOrder => 36
  | addOrderMpid => 40
  | orderExecuted => 31
  | orderExecutedWithPrice => 36
  | orderCancel => 23
  | orderDelete => 19
  | orderReplace => 35
  | tradeNonCross => 44
  | tradeCross => 40
  | brokenTrade => 19

theorem code_of_ofByte {b : BitVec 8} {t : MessageType} (named : ofByte b = some t) : t.code = b := by
  have found := List.find?_some named
  exact eq_of_beq found

end MessageType

/-- `is_known`. -/
def isKnown (type : BitVec 8) : Bool := (MessageType.ofByte type).isSome

/-- `Stock`: eight bytes, padding included. -/
abbrev Stock := List (BitVec 8)

/-- `Header`. -/
structure Header where
  stockLocate : BitVec 16
  trackingNumber : BitVec 16
  timestamp : BitVec 64
  deriving DecidableEq, Repr

/-- `StockDirectory`. -/
structure StockDirectory where
  header : Header
  stock : Stock
  marketCategory : BitVec 8
  roundLotSize : BitVec 32
  deriving DecidableEq, Repr

/-- `AddOrder`. -/
structure AddOrder where
  header : Header
  orderRef : BitVec 64
  side : BitVec 8
  shares : BitVec 32
  stock : Stock
  price : BitVec 32
  deriving DecidableEq, Repr

/-- `OrderExecuted`. -/
structure OrderExecuted where
  header : Header
  orderRef : BitVec 64
  executedShares : BitVec 32
  matchNumber : BitVec 64
  executionPrice : BitVec 32 := 0
  printable : Bool := true
  deriving DecidableEq, Repr

/-- `OrderCancel`. -/
structure OrderCancel where
  header : Header
  orderRef : BitVec 64
  cancelledShares : BitVec 32
  deriving DecidableEq, Repr

/-- `OrderDelete`. -/
structure OrderDelete where
  header : Header
  orderRef : BitVec 64
  deriving DecidableEq, Repr

/-- `OrderReplace`. -/
structure OrderReplace where
  header : Header
  originalOrderRef : BitVec 64
  newOrderRef : BitVec 64
  shares : BitVec 32
  price : BitVec 32
  deriving DecidableEq, Repr

/-- `decode_header`. -/
def decodeHeader (p : Nat) : Reading Header := do
  let stockLocate ← be16 (p + 1)
  let trackingNumber ← be16 (p + 3)
  let timestamp ← be48 (p + 5)
  pure { stockLocate, trackingNumber, timestamp }

/-- `decode_stock_directory`. -/
def decodeStockDirectory (p : Nat) : Reading StockDirectory := do
  let header ← decodeHeader p
  let stock ← readBytes (p + 11) 8
  let marketCategory ← read (p + 19)
  let roundLotSize ← be32 (p + 21)
  pure { header, stock, marketCategory, roundLotSize }

/-- `decode_add_order`, for 'A' and 'F'. -/
def decodeAddOrder (p : Nat) : Reading AddOrder := do
  let header ← decodeHeader p
  let orderRef ← be64 (p + 11)
  let side ← read (p + 19)
  let shares ← be32 (p + 20)
  let stock ← readBytes (p + 24) 8
  let price ← be32 (p + 32)
  pure { header, orderRef, side, shares, stock, price }

/-- `decode_order_executed`, for 'E' and 'C'; only 'C' has the last two fields. -/
def decodeOrderExecuted (p : Nat) : Reading OrderExecuted := do
  let header ← decodeHeader p
  let orderRef ← be64 (p + 11)
  let executedShares ← be32 (p + 19)
  let matchNumber ← be64 (p + 23)
  let msg : OrderExecuted := { header, orderRef, executedShares, matchNumber }
  let type ← read p
  if type = MessageType.orderExecutedWithPrice.code then do
    let printable ← read (p + 31)
    let executionPrice ← be32 (p + 32)
    pure { msg with printable := printable == .ofNat 8 'Y'.toNat, executionPrice }
  else pure msg

/-- `decode_order_cancel`. -/
def decodeOrderCancel (p : Nat) : Reading OrderCancel := do
  let header ← decodeHeader p
  let orderRef ← be64 (p + 11)
  let cancelledShares ← be32 (p + 19)
  pure { header, orderRef, cancelledShares }

/-- `decode_order_delete`. -/
def decodeOrderDelete (p : Nat) : Reading OrderDelete := do
  let header ← decodeHeader p
  let orderRef ← be64 (p + 11)
  pure { header, orderRef }

/-- `decode_order_replace`. -/
def decodeOrderReplace (p : Nat) : Reading OrderReplace := do
  let header ← decodeHeader p
  let originalOrderRef ← be64 (p + 11)
  let newOrderRef ← be64 (p + 19)
  let shares ← be32 (p + 27)
  let price ← be32 (p + 31)
  pure { header, originalOrderRef, newOrderRef, shares, price }

/-! ## How far the decoders read -/

section
variable {mem : Memory} {p n : Nat}

@[simp] theorem within_readBytes {addr k base size : Nat} :
    Within mem (readBytes addr (k + 1)) base size ↔ base ≤ addr ∧ addr + (k + 1) ≤ base + size :=
  within_range (Nat.succ_pos k) (trace_readBytes mem addr (k + 1))

@[simp] theorem within_decodeHeader : Within mem (decodeHeader p) p n ↔ 11 ≤ n := by
  simp only [decodeHeader, within_bind, within_be16, within_be48, within_pure, and_true]
  omega

theorem within_decodeStockDirectory : Within mem (decodeStockDirectory p) p n ↔ 25 ≤ n := by
  simp only [decodeStockDirectory, within_bind, within_decodeHeader, within_readBytes, within_read, within_be32, within_pure, and_true]
  omega

theorem within_decodeAddOrder : Within mem (decodeAddOrder p) p n ↔ 36 ≤ n := by
  simp only [decodeAddOrder, within_bind, within_decodeHeader, within_be64, within_readBytes, within_read, within_be32,
    within_pure, and_true]
  omega

/-- The tail of 'C' lies behind everything 'E' has. -/
theorem within_decodeOrderExecuted : Within mem (decodeOrderExecuted p) p n ↔
    (if mem p = MessageType.orderExecutedWithPrice.code then 36 else 31) ≤ n := by
  by_cases withPrice : mem p = MessageType.orderExecutedWithPrice.code
  · have type : (read p).value mem = MessageType.orderExecutedWithPrice.code := withPrice
    simp only [decodeOrderExecuted, within_bind, within_decodeHeader, within_be64, within_be32, within_read, within_pure,
      and_true, type, withPrice, if_true]
    omega
  · have type : ¬ (read p).value mem = MessageType.orderExecutedWithPrice.code := withPrice
    simp only [decodeOrderExecuted, within_bind, within_decodeHeader, within_be64, within_be32, within_read, within_pure,
      and_true, type, withPrice, if_false]
    omega

theorem within_decodeOrderCancel : Within mem (decodeOrderCancel p) p n ↔ 23 ≤ n := by
  simp only [decodeOrderCancel, within_bind, within_decodeHeader, within_be64, within_be32, within_pure, and_true]
  omega

theorem within_decodeOrderDelete : Within mem (decodeOrderDelete p) p n ↔ 19 ≤ n := by
  simp only [decodeOrderDelete, within_bind, within_decodeHeader, within_be64, within_pure, and_true]
  omega

theorem within_decodeOrderReplace : Within mem (decodeOrderReplace p) p n ↔ 35 ≤ n := by
  simp only [decodeOrderReplace, within_bind, within_decodeHeader, within_be64, within_be32, within_pure, and_true]
  omega

end

/-! ## What the decoders depend on -/

theorem movable_decodeHeader : Movable decodeHeader := by
  intro mem p
  simp only [decodeHeader, value_bind, value_pure, Nat.zero_add, value_be16_add, value_be48_add]

theorem movable_decodeStockDirectory : Movable decodeStockDirectory := by
  intro mem p
  simp only [decodeStockDirectory, value_bind, value_pure, Nat.zero_add, movable_decodeHeader mem p, value_readBytes_add,
    value_read_add, value_be32_add]

theorem movable_decodeAddOrder : Movable decodeAddOrder := by
  intro mem p
  simp only [decodeAddOrder, value_bind, value_pure, Nat.zero_add, movable_decodeHeader mem p, value_be64_add,
    value_readBytes_add, value_read_add, value_be32_add]

theorem movable_decodeOrderExecuted : Movable decodeOrderExecuted := by
  intro mem p
  have type : (read p).value mem = (read 0).value (seenFrom p mem) := value_read_add mem p 0
  simp only [decodeOrderExecuted, value_bind, Nat.zero_add, movable_decodeHeader mem p, value_be64_add, value_be32_add, type]
  split
  · simp only [value_bind, value_pure, value_read_add, value_be32_add]
  · rfl

theorem movable_decodeOrderCancel : Movable decodeOrderCancel := by
  intro mem p
  simp only [decodeOrderCancel, value_bind, value_pure, Nat.zero_add, movable_decodeHeader mem p, value_be64_add, value_be32_add]

theorem movable_decodeOrderDelete : Movable decodeOrderDelete := by
  intro mem p
  simp only [decodeOrderDelete, value_bind, value_pure, Nat.zero_add, movable_decodeHeader mem p, value_be64_add]

theorem movable_decodeOrderReplace : Movable decodeOrderReplace := by
  intro mem p
  simp only [decodeOrderReplace, value_bind, value_pure, Nat.zero_add, movable_decodeHeader mem p, value_be64_add,
    value_be32_add]

end Nts.Itch
