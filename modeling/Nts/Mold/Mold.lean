import Nts.Itch.Blocks

/-!
# MoldUDP64 headers (`mold/mold.h`, `mold/mold.cc`)

A header is the session, the sequence of the first message and the number of
messages, most significant byte first. `encodeHeader` and `decodeHeader` are inverse to
each other.
-/

namespace Nts.Mold
open Reading Itch

def kSessionSize : Nat := 10

def kHeaderSize : Nat := 20

def kEndOfSession : BitVec 16 := 0xFFFF#16

def kHeartbeat : BitVec 16 := 0#16

/-- `Session`: `kSessionSize` characters. -/
abbrev Session := {chars : List Byte // chars.length = kSessionSize}

/-- `Header`. -/
structure Header where
  session : Session
  sequence : BitVec 64
  messageCount : BitVec 16
  deriving DecidableEq, Repr

/-- `put_be16`. -/
def putBe16 (v : BitVec 16) : List Byte := [(v >>> 8).setWidth 8, (v &&& 0xFF#16).setWidth 8]

/-- The loop of `put_be64`: `left` more bytes in front of `out`. -/
def putBe64Loop : Nat → BitVec 64 → List Byte → List Byte
  | 0, _, out => out
  | left + 1, v, out => putBe64Loop left (v >>> 8) ((v &&& 0xFF#64).setWidth 8 :: out)

/-- `put_be64`. -/
def putBe64 (v : BitVec 64) : List Byte := putBe64Loop 8 v []

/-- `encode_header`: the bytes it writes. -/
def encodeHeader (h : Header) : List Byte := h.session.1 ++ putBe64 h.sequence ++ putBe16 h.messageCount

/-- The loop of `decode_header` over the session's characters. -/
def readSession (p : Nat) : (n : Nat) → Reading {chars : List Byte // chars.length = n}
  | 0 => pure ⟨[], rfl⟩
  | n + 1 => do
    let c ← read p
    let cs ← readSession (p + 1) n
    pure ⟨c :: cs.1, by rw [List.length_cons, cs.2]⟩

/-- `decode_header`. -/
def decodeHeader (p : Nat) : Reading Header := do
  let session ← readSession p kSessionSize
  let sequence ← be64 (p + kSessionSize)
  let messageCount ← be16 (p + kSessionSize + 8)
  pure ⟨session, sequence, messageCount⟩

/-- The loop of `make_session`: `n` characters of a text, up to its terminator, over spaces. -/
def makeSessionLoop : (n : Nat) → List Byte → {chars : List Byte // chars.length = n}
  | 0, _ => ⟨[], rfl⟩
  | n + 1, [] => ⟨List.replicate (n + 1) 0x20#8, List.length_replicate⟩
  | n + 1, c :: text =>
    if c = 0#8 then ⟨List.replicate (n + 1) 0x20#8, List.length_replicate⟩
    else
      let rest := makeSessionLoop n text
      ⟨c :: rest.1, by rw [List.length_cons, rest.2]⟩

/-- `make_session`. -/
def makeSession (text : List Byte) : Session := makeSessionLoop kSessionSize text

/-- A packet of messages: the header and a block for each. -/
def packetOf (session : Session) (sequence : BitVec 64) (messages : List (List Byte)) : List Byte :=
  encodeHeader ⟨session, sequence, .ofNat 16 messages.length⟩ ++ messages.flatMap block

/-! ## The bytes of a number -/

theorem bigEndian_putBe16 (v : BitVec 16) : bigEndian (putBe16 v) = v.toNat := by
  have small := v.isLt
  have low : v.toNat &&& 255 = v.toNat % 256 := Nat.and_two_pow_sub_one_eq_mod v.toNat 8
  simp only [bigEndian, putBe16, List.foldl_cons, List.foldl_nil, BitVec.toNat_setWidth, BitVec.toNat_ushiftRight,
    BitVec.toNat_and, BitVec.toNat_ofNat, Nat.shiftRight_eq_div_pow, Nat.reducePow, Nat.reduceMod, low]
  omega

theorem length_putBe64Loop (left : Nat) (v : BitVec 64) (out : List Byte) :
    (putBe64Loop left v out).length = left + out.length := by
  induction left generalizing v out with
  | zero => exact (Nat.zero_add _).symm
  | succ left ih =>
    rw [putBe64Loop, ih, List.length_cons]
    omega

/-- The loop puts the low bytes of `v`, the last of them right in front of `out`. -/
theorem bigEndian_putBe64Loop (left : Nat) (v : BitVec 64) (out : List Byte) :
    bigEndian (putBe64Loop left v out) = v.toNat % 256 ^ left * 256 ^ out.length + bigEndian out := by
  induction left generalizing v out with
  | zero => simp [putBe64Loop, Nat.mod_one]
  | succ left ih =>
    have low : ((v &&& 0xFF#64).setWidth 8).toNat = v.toNat % 256 := by
      have mask : v.toNat &&& 255 = v.toNat % 256 := Nat.and_two_pow_sub_one_eq_mod v.toNat 8
      simp only [BitVec.toNat_setWidth, BitVec.toNat_and, BitVec.toNat_ofNat, Nat.reducePow, Nat.reduceMod, mask]
      omega
    have high : (v >>> 8).toNat = v.toNat / 256 := by
      rw [BitVec.toNat_ushiftRight, Nat.shiftRight_eq_div_pow]
    have split : v.toNat % 256 ^ (left + 1) = v.toNat % 256 + 256 * (v.toNat / 256 % 256 ^ left) := by
      rw [pow_succ, Nat.mul_comm, Nat.mod_mul]
    rw [putBe64Loop, ih, bigEndian_cons, List.length_cons, low, high, split, pow_succ]
    ring

theorem bigEndian_putBe64 (v : BitVec 64) : bigEndian (putBe64 v) = v.toNat := by
  have loop := bigEndian_putBe64Loop 8 v []
  rw [Nat.mod_eq_of_lt (show v.toNat < 256 ^ 8 from v.isLt)] at loop
  rw [putBe64, loop]
  simp [bigEndian]

theorem length_encodeHeader (h : Header) : (encodeHeader h).length = kHeaderSize := by
  rw [encodeHeader, List.length_append, List.length_append, h.session.2, putBe64, length_putBe64Loop]
  rfl

/-! ## Round trips -/

theorem value_readSession (mem : Memory) (p n : Nat) : ((readSession p n).value mem).1 = bytesAt mem p n := by
  induction n generalizing p with
  | zero => rfl
  | succ n ih => simp only [readSession, value_bind, value_read, value_pure, ih, bytesAt_succ]

/-- What the three fields of a header are read from. -/
theorem bytesAt_header (mem : Memory) (p : Nat) : bytesAt mem p kHeaderSize =
    bytesAt mem p kSessionSize ++ bytesAt mem (p + kSessionSize) 8 ++ bytesAt mem (p + kSessionSize + 8) 2 := by
  rw [show kHeaderSize = kSessionSize + 8 + 2 from rfl, bytesAt_add, bytesAt_add]
  rfl

/-- **Round trip.** An encoded header decodes to itself. -/
theorem value_decodeHeader {mem : Memory} {p : Nat} {h : Header} (here : bytesAt mem p kHeaderSize = encodeHeader h) :
    (decodeHeader p).value mem = h := by
  rw [bytesAt_header, encodeHeader] at here
  obtain ⟨front, count⟩ := List.append_inj here (by
    rw [List.length_append, List.length_append, length_bytesAt, length_bytesAt, h.session.2, putBe64,
      length_putBe64Loop]
    rfl)
  obtain ⟨session, sequence⟩ := List.append_inj front (by rw [length_bytesAt, h.session.2])
  have sequence' : (be64 (p + kSessionSize)).value mem = h.sequence := by
    rw [← BitVec.toNat_inj, value_be64, sequence, bigEndian_putBe64]
  have count' : (be16 (p + kSessionSize + 8)).value mem = h.messageCount := by
    rw [← BitVec.toNat_inj, value_be16, count, bigEndian_putBe16]
  have session' : (readSession p kSessionSize).value mem = h.session := by
    apply Subtype.ext
    rw [value_readSession, session]
  simp only [decodeHeader, value_bind, value_pure, session', sequence', count']

/-- A header is read from its `kHeaderSize` bytes. -/
theorem within_decodeHeader {mem : Memory} {base size : Nat} (p : Nat) :
    Within mem (decodeHeader p) base size ↔ base ≤ p ∧ p + kHeaderSize ≤ base + size := by
  have session : ∀ n q, 0 < n → (Within mem (readSession q n) base size ↔ base ≤ q ∧ q + n ≤ base + size) := by
    intro n
    induction n with
    | zero =>
      intro q positive
      omega
    | succ n ih =>
      intro q _
      simp only [readSession, within_bind, within_read, within_pure, and_true]
      cases n with
      | zero =>
        simp only [readSession, within_pure, and_true]
        omega
      | succ n =>
        rw [ih (q + 1) (by omega)]
        omega
  simp only [decodeHeader, within_bind, within_pure, and_true, within_be64, within_be16,
    session kSessionSize p (by decide)]
  simp only [kHeaderSize, kSessionSize]
  omega

end Nts.Mold
