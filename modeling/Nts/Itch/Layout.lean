import Nts.Itch.Messages
import Nts.Lib.Codec

/-!
# Layout of the messages (`itch/messages.h`, `itch/message_type.h`, `itch/decoder.cc`)

The two decoders that feed no book, and the layouts behind all of them. A `WireMessage` has every field of its type, the ones
no decoder looks at included. Its encoding has the table length, every string of that length is the encoding of one
message, and the decoders return the fields under their names.
-/

namespace Nts.Itch
open Reading

/-- `SystemEvent`. -/
structure SystemEvent where
  header : Header
  eventCode : BitVec 8
  deriving DecidableEq, Repr

/-- `Trade`. -/
structure Trade where
  header : Header
  orderRef : BitVec 64 := 0
  side : BitVec 8
  shares : BitVec 64
  stock : Stock
  price : BitVec 32
  matchNumber : BitVec 64
  hasOrder : Bool
  deriving DecidableEq, Repr

/-- `decode_system_event`. -/
def decodeSystemEvent (p : Nat) : Reading SystemEvent := do
  let header ← decodeHeader p
  let eventCode ← read (p + 11)
  pure { header, eventCode }

/-- `decode_trade`, for 'P' and 'Q'. -/
def decodeTrade (p : Nat) : Reading Trade := do
  let header ← decodeHeader p
  let type ← read p
  if type = MessageType.tradeNonCross.code then do
    let orderRef ← be64 (p + 11)
    let side ← read (p + 19)
    let shares ← be32 (p + 20)
    let stock ← readBytes (p + 24) 8
    let price ← be32 (p + 32)
    let matchNumber ← be64 (p + 36)
    pure { header, orderRef, side, shares := shares.setWidth 64, stock, price, matchNumber, hasOrder := true }
  else do
    -- a cross has eight bytes of shares, no order and no side
    let shares ← be64 (p + 11)
    let stock ← readBytes (p + 19) 8
    let price ← be32 (p + 27)
    let matchNumber ← be64 (p + 31)
    pure { header, side := .ofNat 8 ' '.toNat, shares, stock, price, matchNumber, hasOrder := false }

/-! ## The layouts -/

/-- The fields behind the header, in the order of their offsets. -/
abbrev Body : MessageType → Type
  | .systemEvent => BitVec 8
  | .stockDirectory => Bytes 8 × BitVec 8 × BitVec 8 × BitVec 32 × Bytes 14
  | .stockTradingAction => Bytes 8 × BitVec 8 × BitVec 8 × Bytes 4
  | .regShoRestriction => Bytes 8 × BitVec 8
  | .marketParticipantPos => Bytes 4 × Bytes 8 × BitVec 8 × BitVec 8 × BitVec 8
  | .addOrder => BitVec 64 × BitVec 8 × BitVec 32 × Bytes 8 × BitVec 32
  | .addOrderMpid => BitVec 64 × BitVec 8 × BitVec 32 × Bytes 8 × BitVec 32 × Bytes 4
  | .orderExecuted => BitVec 64 × BitVec 32 × BitVec 64
  | .orderExecutedWithPrice => BitVec 64 × BitVec 32 × BitVec 64 × BitVec 8 × BitVec 32
  | .orderCancel => BitVec 64 × BitVec 32
  | .orderDelete => BitVec 64
  | .orderReplace => BitVec 64 × BitVec 64 × BitVec 32 × BitVec 32
  | .tradeNonCross => BitVec 64 × BitVec 8 × BitVec 32 × Bytes 8 × BitVec 32 × BitVec 64
  | .tradeCross => BitVec 64 × Bytes 8 × BitVec 32 × BitVec 64 × BitVec 8
  | .brokenTrade => BitVec 64

/-- Locate, tracking number and the six bytes of the timestamp. -/
abbrev WireHeader := BitVec 16 × BitVec 16 × BitVec 48

/-- A message with all its fields. -/
structure WireMessage where
  type : MessageType
  header : WireHeader
  body : Body type

open Codec in
/-- The layout of the header, behind the type byte. -/
def headerCodec : Codec WireHeader := (word 2 rfl).pair ((word 2 rfl).pair (word 6 rfl))

open Codec in
/-- The layout of the fields behind the header. -/
def bodyCodec : (type : MessageType) → Codec (Body type)
  | .systemEvent => byte
  | .stockDirectory => (bytes 8).pair (byte.pair (byte.pair ((word 4 rfl).pair (bytes 14))))
  | .stockTradingAction => (bytes 8).pair (byte.pair (byte.pair (bytes 4)))
  | .regShoRestriction => (bytes 8).pair byte
  | .marketParticipantPos => (bytes 4).pair ((bytes 8).pair (byte.pair (byte.pair byte)))
  | .addOrder => (word 8 rfl).pair (byte.pair ((word 4 rfl).pair ((bytes 8).pair (word 4 rfl))))
  | .addOrderMpid => (word 8 rfl).pair (byte.pair ((word 4 rfl).pair ((bytes 8).pair ((word 4 rfl).pair (bytes 4)))))
  | .orderExecuted => (word 8 rfl).pair ((word 4 rfl).pair (word 8 rfl))
  | .orderExecutedWithPrice => (word 8 rfl).pair ((word 4 rfl).pair ((word 8 rfl).pair (byte.pair (word 4 rfl))))
  | .orderCancel => (word 8 rfl).pair (word 4 rfl)
  | .orderDelete => word 8 rfl
  | .orderReplace => (word 8 rfl).pair ((word 8 rfl).pair ((word 4 rfl).pair (word 4 rfl)))
  | .tradeNonCross => (word 8 rfl).pair (byte.pair ((word 4 rfl).pair ((bytes 8).pair ((word 4 rfl).pair (word 8 rfl)))))
  | .tradeCross => (word 8 rfl).pair ((bytes 8).pair ((word 4 rfl).pair ((word 8 rfl).pair byte)))
  | .brokenTrade => word 8 rfl

/-- The layouts have the lengths of the table. -/
theorem width_bodyCodec (type : MessageType) : type.expectedLength = 11 + (bodyCodec type).width := by
  cases type <;> rfl

theorem MessageType.ofByte_code (type : MessageType) : MessageType.ofByte type.code = some type := by
  cases type <;> rfl

namespace WireMessage

/-- The bytes of a message: type, header, fields. -/
def encode (m : WireMessage) : List (BitVec 8) :=
  m.type.code :: (headerCodec.encode m.header ++ (bodyCodec m.type).encode m.body)

/-- The message some bytes are the encoding of. -/
def ofBytes : List (BitVec 8) → Option WireMessage
  | [] => none
  | b :: rest =>
    match MessageType.ofByte b with
    | none => none
    | some type =>
      if rest.length + 1 = type.expectedLength then
        some ⟨type, headerCodec.decode (rest.take 10), (bodyCodec type).decode (rest.drop 10)⟩
      else none

theorem length_encode (m : WireMessage) : m.encode.length = m.type.expectedLength := by
  have header : (headerCodec.encode m.header).length = 10 := headerCodec.length_encode m.header
  rw [encode, List.length_cons, List.length_append, header, (bodyCodec m.type).length_encode, width_bodyCodec]
  omega

/-- **The layout is exact**: bytes are the encoding of the message they are read as, and of no other. -/
theorem ofBytes_eq_some {bytes : List (BitVec 8)} {m : WireMessage} : ofBytes bytes = some m ↔ m.encode = bytes := by
  constructor
  · intro found
    cases bytes with
    | nil => cases found
    | cons b rest =>
      simp only [ofBytes] at found
      cases named : MessageType.ofByte b with
      | none => rw [named] at found; cases found
      | some type =>
        simp only [named] at found
        split at found
        · next whole =>
          obtain rfl := Option.some.inj found
          rw [width_bodyCodec] at whole
          have first : (rest.take 10).length = 10 := by rw [List.length_take]; omega
          have second : (rest.drop 10).length = (bodyCodec type).width := by rw [List.length_drop]; omega
          simp only [encode]
          rw [headerCodec.encode_decode _ first, (bodyCodec type).encode_decode _ second, List.take_append_drop,
            MessageType.code_of_ofByte named]
        · cases found
  · rintro rfl
    have header : (headerCodec.encode m.header).length = 10 := headerCodec.length_encode m.header
    have whole : (headerCodec.encode m.header ++ (bodyCodec m.type).encode m.body).length + 1 = m.type.expectedLength := m.length_encode
    simp only [encode, ofBytes, MessageType.ofByte_code]
    rw [if_pos whole, List.take_left' header, List.drop_left' header, headerCodec.decode_encode, (bodyCodec m.type).decode_encode]

theorem encode_injective : Function.Injective encode := by
  intro m m' same
  have back := ofBytes_eq_some.mpr same
  rw [ofBytes_eq_some.mpr (rfl : m'.encode = m'.encode)] at back
  exact (Option.some.inj back).symm

/-- The strings of a known type and its table length are the encodings. -/
theorem exists_encode_iff {bytes : List (BitVec 8)} : (∃ m : WireMessage, m.encode = bytes) ↔
    ∃ type : MessageType, bytes.head? = some type.code ∧ bytes.length = type.expectedLength := by
  constructor
  · rintro ⟨m, rfl⟩
    exact ⟨m.type, rfl, m.length_encode⟩
  · rintro ⟨type, first, length⟩
    obtain ⟨rest, rfl⟩ := List.head?_eq_some_iff.mp first
    refine ⟨⟨type, headerCodec.decode (rest.take 10), (bodyCodec type).decode (rest.drop 10)⟩, ofBytes_eq_some.mp ?_⟩
    simp only [ofBytes, MessageType.ofByte_code]
    rw [List.length_cons] at length
    rw [if_pos length]

end WireMessage

/-! ## The decoders -/

/-- What the decoders make of the header. -/
def WireHeader.decoded (h : WireHeader) : Header := ⟨h.1, h.2.1, h.2.2.setWidth 64⟩

/-- The records of the decoders; a type without one has its header. -/
inductive Record where
  | systemEvent (msg : SystemEvent)
  | stockDirectory (msg : StockDirectory)
  | addOrder (msg : AddOrder)
  | orderExecuted (msg : OrderExecuted)
  | orderCancel (msg : OrderCancel)
  | orderDelete (msg : OrderDelete)
  | orderReplace (msg : OrderReplace)
  | trade (msg : Trade)
  | header (h : Header)
  deriving DecidableEq, Repr

/-- The decoder of a type. -/
def decode (type : MessageType) (p : Nat) : Reading Record :=
  match type with
  | .systemEvent => do
    let msg ← decodeSystemEvent p
    pure (.systemEvent msg)
  | .stockDirectory => do
    let msg ← decodeStockDirectory p
    pure (.stockDirectory msg)
  | .addOrder | .addOrderMpid => do
    let msg ← decodeAddOrder p
    pure (.addOrder msg)
  | .orderExecuted | .orderExecutedWithPrice => do
    let msg ← decodeOrderExecuted p
    pure (.orderExecuted msg)
  | .orderCancel => do
    let msg ← decodeOrderCancel p
    pure (.orderCancel msg)
  | .orderDelete => do
    let msg ← decodeOrderDelete p
    pure (.orderDelete msg)
  | .orderReplace => do
    let msg ← decodeOrderReplace p
    pure (.orderReplace msg)
  | .tradeNonCross | .tradeCross => do
    let msg ← decodeTrade p
    pure (.trade msg)
  | .stockTradingAction | .regShoRestriction | .marketParticipantPos | .brokenTrade => do
    let h ← decodeHeader p
    pure (.header h)

/-- The record of a message, field by field. -/
def WireMessage.record : WireMessage → Record
  | ⟨.systemEvent, h, eventCode⟩ => .systemEvent ⟨h.decoded, eventCode⟩
  | ⟨.stockDirectory, h, (stock, marketCategory, _, roundLotSize, _)⟩ =>
    .stockDirectory ⟨h.decoded, stock, marketCategory, roundLotSize⟩
  | ⟨.addOrder, h, (orderRef, side, shares, stock, price)⟩ => .addOrder ⟨h.decoded, orderRef, side, shares, stock, price⟩
  | ⟨.addOrderMpid, h, (orderRef, side, shares, stock, price, _)⟩ =>
    .addOrder ⟨h.decoded, orderRef, side, shares, stock, price⟩
  | ⟨.orderExecuted, h, (orderRef, executedShares, matchNumber)⟩ =>
    .orderExecuted ⟨h.decoded, orderRef, executedShares, matchNumber, 0, true⟩
  | ⟨.orderExecutedWithPrice, h, (orderRef, executedShares, matchNumber, printable, executionPrice)⟩ =>
    .orderExecuted ⟨h.decoded, orderRef, executedShares, matchNumber, executionPrice, printable == .ofNat 8 'Y'.toNat⟩
  | ⟨.orderCancel, h, (orderRef, cancelledShares)⟩ => .orderCancel ⟨h.decoded, orderRef, cancelledShares⟩
  | ⟨.orderDelete, h, orderRef⟩ => .orderDelete ⟨h.decoded, orderRef⟩
  | ⟨.orderReplace, h, (originalOrderRef, newOrderRef, shares, price)⟩ =>
    .orderReplace ⟨h.decoded, originalOrderRef, newOrderRef, shares, price⟩
  | ⟨.tradeNonCross, h, (orderRef, side, shares, stock, price, matchNumber)⟩ =>
    .trade ⟨h.decoded, orderRef, side, shares.setWidth 64, stock, price, matchNumber, true⟩
  | ⟨.tradeCross, h, (shares, stock, price, matchNumber, _)⟩ =>
    .trade ⟨h.decoded, 0, .ofNat 8 ' '.toNat, shares, stock, price, matchNumber, false⟩
  | ⟨.stockTradingAction, h, _⟩ | ⟨.regShoRestriction, h, _⟩ | ⟨.marketParticipantPos, h, _⟩ | ⟨.brokenTrade, h, _⟩ =>
    .header h.decoded

section
variable {mem : Memory} {p : Nat}

/-- A message that stands in memory is its type byte, its header and its fields. -/
theorem WireMessage.reads {m : WireMessage} (here : bytesAt mem p m.type.expectedLength = m.encode) :
    mem p = m.type.code ∧ m = ⟨m.type, headerCodec.reads mem (p + 1), (bodyCodec m.type).reads mem (p + 11)⟩ := by
  rw [width_bodyCodec, show 11 + (bodyCodec m.type).width = 10 + (bodyCodec m.type).width + 1 by omega, bytesAt_succ, encode,
    List.cons.injEq, bytesAt_add] at here
  obtain ⟨code, rest⟩ := here
  obtain ⟨header, body⟩ := List.append_inj rest ((length_bytesAt ..).trans (headerCodec.length_encode m.header).symm)
  refine ⟨code, ?_⟩
  rw [headerCodec.reads_of_bytes header, (bodyCodec m.type).reads_of_bytes body]

theorem value_decodeHeader (mem : Memory) (p : Nat) :
    (decodeHeader p).value mem = (headerCodec.reads mem (p + 1)).decoded := by
  simp only [decodeHeader, value_bind, value_pure, Codec.value_be16_eq, Codec.value_be48_eq, headerCodec, Codec.reads_pair,
    WireHeader.decoded]
  rfl

/-- The decoder of the type that stands in memory reads its layout. -/
theorem value_decode (type : MessageType) (here : mem p = type.code) : (decode type p).value mem =
    WireMessage.record ⟨type, headerCodec.reads mem (p + 1), (bodyCodec type).reads mem (p + 11)⟩ := by
  have code : Codec.byte.reads mem p = type.code := here
  have cross : MessageType.tradeCross.code ≠ MessageType.tradeNonCross.code := by decide
  have plain : MessageType.orderExecuted.code ≠ MessageType.orderExecutedWithPrice.code := by decide
  cases type <;>
    simp only [decode, decodeSystemEvent, decodeStockDirectory, decodeAddOrder, decodeOrderExecuted, decodeOrderCancel,
      decodeOrderDelete, decodeOrderReplace, decodeTrade, value_bind, value_pure, value_decodeHeader, Codec.value_be32_eq,
      Codec.value_be64_eq, Codec.value_read_eq, Codec.value_readBytes_eq, WireMessage.record, bodyCodec, Codec.reads_pair, code,
      cross, plain, if_true, if_false] <;> rfl

theorem within_decodeSystemEvent {n : Nat} : Within mem (decodeSystemEvent p) p n ↔ 12 ≤ n := by
  simp only [decodeSystemEvent, within_bind, within_decodeHeader, within_read, within_pure, and_true]
  omega

/-- A trade is read whole, a cross but for its last byte. -/
theorem within_decodeTrade {n : Nat} : Within mem (decodeTrade p) p n ↔
    (if mem p = MessageType.tradeNonCross.code then 44 else 39) ≤ n := by
  by_cases print : mem p = MessageType.tradeNonCross.code
  · have type : (Reading.read p).value mem = MessageType.tradeNonCross.code := print
    simp only [decodeTrade, within_bind, within_decodeHeader, within_be64, within_be32, within_read, within_readBytes, within_pure,
      and_true, type, print, if_true]
    omega
  · have type : ¬ (Reading.read p).value mem = MessageType.tradeNonCross.code := print
    simp only [decodeTrade, within_bind, within_decodeHeader, within_be64, within_be32, within_read, within_readBytes, within_pure,
      and_true, type, print, if_false]
    omega

/-- It reads inside the table length. -/
theorem within_decode (type : MessageType) (here : mem p = type.code) :
    Within mem (decode type p) p type.expectedLength := by
  have cross : MessageType.tradeCross.code ≠ MessageType.tradeNonCross.code := by decide
  have plain : MessageType.orderExecuted.code ≠ MessageType.orderExecutedWithPrice.code := by decide
  cases type <;>
    simp only [decode, within_bind, within_pure, and_true, within_decodeSystemEvent, within_decodeStockDirectory,
      within_decodeAddOrder, within_decodeOrderExecuted, within_decodeOrderCancel, within_decodeOrderDelete,
      within_decodeOrderReplace, within_decodeTrade, within_decodeHeader, here, cross, plain, if_true, if_false,
      MessageType.expectedLength] <;> decide

/-- **Round trip.** -/
structure RoundTrips (m : WireMessage) : Prop where
  length : m.encode.length = m.type.expectedLength
  /-- The bytes are read as the message, and no other message has them. -/
  back : WireMessage.ofBytes m.encode = some m
  only : ∀ m' : WireMessage, m'.encode = m.encode → m' = m
  /-- Wherever they stand, the decoder of the type returns the fields, and reads nothing else. -/
  decodes : ∀ (mem : Memory) p, bytesAt mem p m.type.expectedLength = m.encode →
    (decode m.type p).value mem = m.record ∧ Within mem (decode m.type p) p m.type.expectedLength

end

/-- **The wire format.** Every message survives its encoding, and the strings of a known type and its table length are
exactly the encodings. -/
theorem wire_format : (∀ m, RoundTrips m) ∧ ∀ bytes : List (BitVec 8), (∃ m : WireMessage, m.encode = bytes) ↔
    ∃ type : MessageType, bytes.head? = some type.code ∧ bytes.length = type.expectedLength := by
  refine ⟨fun m => ⟨m.length_encode, WireMessage.ofBytes_eq_some.mpr rfl, fun m' same => WireMessage.encode_injective same, ?_⟩,
    fun bytes => WireMessage.exists_encode_iff⟩
  intro mem p here
  obtain ⟨code, found⟩ := WireMessage.reads here
  refine ⟨?_, within_decode m.type code⟩
  rw [value_decode m.type code, ← found]

end Nts.Itch
