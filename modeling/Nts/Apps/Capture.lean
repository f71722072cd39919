import Nts.Lib.Pcap
import Nts.Lib.Runs
import Nts.Lib.Stores
import Nts.Mold.Mold
import Nts.Receive.Sockets

/-!
# `mold_capture` (`apps/replayer/capture.cc`)

Takes datagrams off a socket and writes each to a file, behind a record header and the IPv4 and UDP headers it makes
up from the sender's address. What the kernel does is the input of a turn, `inet_pton` a parameter. The file
is read back with `Pcap.read`.
-/

namespace Nts.Apps
open Reading Itch Mold

/-- What a turn of the loop takes off the socket, and the time behind it. -/
structure Taken where
  bytes : List Byte
  sender : SockaddrIn
  tvSec : BitVec 64
  tvUsec : BitVec 64
  deriving DecidableEq, Repr

/-- A line that is printed. -/
structure CaptureLine where
  n : Nat
  got : Nat
  header : Mold.Header
  deriving DecidableEq, Repr

/-- A line in numbers: the number of the packet, its length, the bytes of its header. -/
def CaptureLine.values (l : CaptureLine) : Nat × Nat × List Byte := (l.n, l.got, encodeHeader l.header)

namespace Capture

/-! ## What it writes -/

/-- `put32`, on a little-endian host. -/
def put32 (v : BitVec 32) : List Byte := [v.setWidth 8, (v >>> 8).setWidth 8, (v >>> 16).setWidth 8, (v >>> 24).setWidth 8]

/-- `put16`. -/
def put16 (v : BitVec 16) : List Byte := [v.setWidth 8, (v >>> 8).setWidth 8]

/-- The first loop of `ip_checksum`. -/
def addWords : List Byte → BitVec 32 → BitVec 32
  | high :: low :: rest, sum => addWords rest (sum + ((high.setWidth 32 <<< 8) ||| low.setWidth 32))
  | _, sum => sum

theorem lt_of_carries {sum : BitVec 32} (carries : sum >>> 16 ≠ 0#32) :
    ((sum &&& 0xFFFF#32) + (sum >>> 16)).toNat = sum.toNat % 65536 + sum.toNat / 65536 ∧ 65536 ≤ sum.toNat := by
  have small := sum.isLt
  have high : (sum >>> 16).toNat = sum.toNat / 65536 := by rw [BitVec.toNat_ushiftRight, Nat.shiftRight_eq_div_pow]
  have low : (sum &&& 0xFFFF#32).toNat = sum.toNat % 65536 := Nat.and_two_pow_sub_one_eq_mod sum.toNat 16
  have nonzero : (sum >>> 16).toNat ≠ 0 := fun zero => carries (BitVec.eq_of_toNat_eq zero)
  rw [BitVec.toNat_add, high, low]
  omega

/-- Its second loop. -/
def foldCarries (sum : BitVec 32) : BitVec 32 :=
  if _ : sum >>> 16 ≠ 0#32 then foldCarries ((sum &&& 0xFFFF#32) + (sum >>> 16)) else sum
termination_by sum.toNat
decreasing_by
  next carries =>
  obtain ⟨sum', carried⟩ := lt_of_carries carries
  omega

/-- `ip_checksum`. -/
def ipChecksum (bytes : List Byte) : BitVec 16 := (~~~foldCarries (addWords bytes 0#32)).setWidth 16

/-- What `main` reads from its arguments. -/
structure Options where
  port : BitVec 16 := 26477#16
  group : String := ""
  out : String := "capture.pcap"
  count : Int := 5
  deriving DecidableEq, Repr

/-- `std::atoi`: spaces, a sign, and the digits behind it. What is too large for an `int` has no defined value. -/
def atoi (s : String) : Int :=
  let value (digits : List Char) : Int := (digits.takeWhile Char.isDigit).foldl (fun n d => 10 * n + (d.toNat - '0'.toNat)) 0
  match s.toList.dropWhile fun c => c = ' ' || 9 ≤ c.toNat && c.toNat ≤ 13 with
  | '-' :: digits => -value digits
  | '+' :: digits => value digits
  | digits => value digits

/-- The loop of `main` over its arguments; `none` is the usage. -/
def parseArgs (o : Options) : List String → Option Options
  | [] => some o
  | "--port" :: v :: args => parseArgs { o with port := .ofInt 16 (atoi v) } args
  | "--group" :: v :: args => parseArgs { o with group := v } args
  | "--out" :: v :: args => parseArgs { o with out := v } args
  | "--count" :: v :: args => parseArgs { o with count := atoi v } args
  | _ => none

def kBufferSize : Nat := 65536

/-- `buf`. -/
abbrev Buffer := { bytes : List Byte // bytes.length = kBufferSize }

/-- `recvfrom` into the buffer, without `MSG_TRUNC`. -/
def Buffer.fill (buf : Buffer) (bytes : List Byte) : Buffer :=
  ⟨Store.apply buf.val ⟨0, bytes.take kBufferSize⟩, by
    rw [Store.length_apply, buf.property]
    rw [Store.Inside, Nat.zero_add, buf.property]
    exact List.length_take_le _ _⟩

section
variable (inetPton : String → Option (Bytes 4)) (o : Options)

/-- `dst`: the group, and the sender's own address where there is none. -/
def dst (sender : SockaddrIn) : Bytes 4 :=
  if o.group = "" then sender.sinAddr else (inetPton o.group).getD inaddrAny

/-- `hdr` in front of its checksum. -/
def bareHeader (sender : SockaddrIn) (payload : BitVec 16) : List Byte :=
  let total : BitVec 16 := 20#16 + 8#16 + payload
  let hdr := List.replicate 28 0#8
  let hdr := hdr.set 0 0x45#8
  let hdr := hdr.set 2 ((total >>> 8).setWidth 8)
  let hdr := hdr.set 3 ((total &&& 0xFF#16).setWidth 8)
  let hdr := hdr.set 8 64#8
  let hdr := hdr.set 9 17#8
  let hdr := Store.apply hdr ⟨12, sender.sinAddr.1⟩
  Store.apply hdr ⟨16, (dst inetPton o sender).1⟩

/-- `hdr`. `htons` puts the high byte in front. -/
def packetHeader (sender : SockaddrIn) (payload : BitVec 16) : List Byte :=
  let hdr := bareHeader inetPton o sender payload
  let csum := ipChecksum (hdr.take 20)
  let hdr := hdr.set 10 ((csum >>> 8).setWidth 8)
  let hdr := hdr.set 11 ((csum &&& 0xFF#16).setWidth 8)
  let hdr := Store.apply hdr ⟨20, sender.sinPort.1⟩
  let hdr := Store.apply hdr ⟨22, putBe16 o.port⟩
  let ulen : BitVec 16 := 8#16 + payload
  let hdr := hdr.set 24 ((ulen >>> 8).setWidth 8)
  hdr.set 25 ((ulen &&& 0xFF#16).setWidth 8)

/-! ## `main` -/

/-- What a call of `recvfrom` does. -/
inductive Turn where
  | datagram (t : Taken)
  | failed
  deriving DecidableEq, Repr

/-- The variables of the loop, and what is written and printed so far. -/
structure State where
  n : Nat := 0
  buf : Buffer := ⟨List.replicate kBufferSize 0#8, List.length_replicate⟩
  file : List Byte
  lines : List CaptureLine := []

/-- One turn; the flag says that the loop is left. -/
def turn (s : State) : Turn → State × Bool
  | .failed => (s, true)
  | .datagram t =>
    let got := min t.bytes.length kBufferSize
    let buf := s.buf.fill t.bytes
    let payload : BitVec 16 := .ofNat 16 got
    let length : BitVec 32 := 28#32 + payload.setWidth 32
    let file := s.file ++ put32 (t.tvSec.setWidth 32) ++ put32 (t.tvUsec.setWidth 32) ++ put32 length ++ put32 length ++
      packetHeader inetPton o t.sender payload ++ buf.val.take payload.toNat
    let lines := if kHeaderSize ≤ got then s.lines ++ [⟨s.n, got, (Mold.decodeHeader 0).value (memoryOf buf.val)⟩] else s.lines
    ({ n := s.n + 1, buf, file, lines }, false)

/-- The header of the file. -/
def fileHeader : List Byte :=
  put32 0xa1b2c3d4#32 ++ put16 2#16 ++ put16 4#16 ++ put32 0#32 ++ put32 0#32 ++ put32 65535#32 ++ put32 228#32

end

/-- What `bind`, the membership and `fopen` do. -/
structure Setup where
  binds : Bool
  joins : Bool
  opens : Bool
  deriving DecidableEq, Repr

/-- What `main` returns, writes and prints. It returns nothing while `recvfrom` waits. -/
structure Result where
  exit : Option Nat
  file : Option (List Byte) := none
  lines : List CaptureLine := []
  deriving DecidableEq, Repr

/-- `main`. -/
def main (inetPton : String → Option (Bytes 4)) (setup : Setup) (args : List String) (turns : List Turn) : Result :=
  match parseArgs {} args with
  | none => { exit := some 2 }
  | some o =>
    if !setup.binds then { exit := some 1 }
    else if o.group ≠ "" && !setup.joins then { exit := some 1 }
    else if !setup.opens then { exit := some 1 }
    else
      let (s, left) := Runs.afterUntil (turn inetPton o) { file := fileHeader } (turns.take o.count.toNat)
      { exit := if left || o.count ≤ turns.length then some 0 else none, file := some s.file, lines := s.lines }

/-! ## The checksum -/

theorem foldCarries_toNat (sum : BitVec 32) : (foldCarries sum).toNat = OnesComplement.fold (2 ^ 16) sum.toNat := by
  induction sum using foldCarries.induct with
  | case1 sum carries ih =>
    obtain ⟨sum', carried⟩ := lt_of_carries carries
    have base : 1 < 2 ^ 16 := by decide
    rw [foldCarries, dif_pos carries, ih, sum']
    exact (OnesComplement.fold_of_le base carried).symm
  | case2 sum done =>
    have small := sum.isLt
    have high : (sum >>> 16).toNat = 0 := by rw [not_not.mp done, BitVec.toNat_ofNat, Nat.zero_mod]
    rw [BitVec.toNat_ushiftRight, Nat.shiftRight_eq_div_pow] at high
    rw [foldCarries, dif_neg done, OnesComplement.fold_of_lt (by omega)]

theorem toNat_word (high low : Byte) : ((high.setWidth 32 <<< 8) ||| low.setWidth 32 : BitVec 32).toNat = bigEndian [high, low] := by
  have high' := high.isLt
  have low' := low.isLt
  have shifted : (high.setWidth 32 <<< 8 : BitVec 32).toNat = high.toNat <<< 8 := by
    rw [BitVec.toNat_shiftLeft, BitVec.toNat_setWidth, Nat.shiftLeft_eq]
    omega
  rw [BitVec.toNat_or, shifted, BitVec.toNat_setWidth, Nat.mod_eq_of_lt (by omega), ← Nat.shiftLeft_add_eq_or_of_lt low',
    Nat.shiftLeft_eq]
  simp only [bigEndian, List.foldl_cons, List.foldl_nil]
  omega

/-- A sum that fits is the sum of the words. -/
theorem addWords_toNat {bytes : List Byte} {sum : BitVec 32} (fits : sum.toNat + Pcap.wordSum bytes < 2 ^ 32) :
    (addWords bytes sum).toNat = sum.toNat + Pcap.wordSum bytes := by
  induction bytes, sum using addWords.induct with
  | case1 high low rest sum ih =>
    have here := toNat_word high low
    rw [Pcap.wordSum] at fits
    have sum' : (sum + ((high.setWidth 32 <<< 8) ||| low.setWidth 32)).toNat = sum.toNat + bigEndian [high, low] := by
      rw [BitVec.toNat_add, here, Nat.mod_eq_of_lt (by omega)]
    rw [addWords, ih (by omega), sum', Pcap.wordSum, Nat.add_assoc]
  | case2 bytes sum single =>
    have nothing : Pcap.wordSum bytes = 0 := by
      rw [Pcap.wordSum]
      exact single
    rw [nothing, addWords, Nat.add_zero]
    exact single

theorem wordSum_le (bytes : List Byte) : Pcap.wordSum bytes ≤ 65535 * bytes.length := by
  induction bytes using Pcap.wordSum.induct with
  | case1 high low rest ih =>
    have word := bigEndian_lt [high, low]
    simp only [List.length_cons, List.length_nil] at word ⊢
    rw [Pcap.wordSum]
    omega
  | case2 bytes single =>
    rw [Pcap.wordSum]
    · exact Nat.zero_le _
    · exact single

/-- The complement of the folded sum. -/
theorem ipChecksum_eq {bytes : List Byte} (short : bytes.length ≤ 65536) :
    ipChecksum bytes = .ofNat 16 (2 ^ 16 - 1 - OnesComplement.fold (2 ^ 16) (Pcap.wordSum bytes)) := by
  have most := wordSum_le bytes
  have sum : (addWords bytes 0#32).toNat = Pcap.wordSum bytes := by
    have added : (addWords bytes 0#32).toNat = (0#32).toNat + Pcap.wordSum bytes := addWords_toNat (by
      rw [BitVec.toNat_ofNat]
      omega)
    rw [added, BitVec.toNat_ofNat, Nat.zero_mod, Nat.zero_add]
  have digit := (OnesComplement.fold_bounds (b := 2 ^ 16) (by decide) (Pcap.wordSum bytes)).1
  have folded := foldCarries_toNat (addWords bytes 0#32)
  rw [sum] at folded
  apply BitVec.eq_of_toNat_eq
  rw [ipChecksum, BitVec.toNat_setWidth, BitVec.toNat_not, folded, BitVec.toNat_ofNat]
  omega

/-! ## The headers -/

theorem putBe16_eq (v : BitVec 16) : putBe16 v = Pcap.net.encode v := by
  symm
  rw [Codec.encode_eq_iff]
  refine ⟨rfl, ?_⟩
  change BitVec.ofNat 16 (bigEndian (putBe16 v)) = v
  rw [bigEndian_putBe16, BitVec.ofNat_toNat, BitVec.setWidth_eq]

theorem ipHeader_bytes (d : Pcap.Datagram) (timeToLive : BitVec 8) (checksum : BitVec 16) : d.ipHeader timeToLive checksum =
    [0x45#8, 0#8] ++ putBe16 (.ofNat 16 (28 + d.payload.length)) ++ [0#8, 0#8, 0#8, 0#8, timeToLive, 17#8] ++ putBe16 checksum ++
      d.source.1 ++ d.destination.1 := by
  have zero : Pcap.net.encode 0#16 = [0#8, 0#8] := rfl
  rw [Pcap.ipHeader_eq, putBe16_eq, putBe16_eq]
  simp only [Pcap.ipFront, Codec.pair, Codec.byte, Codec.bytes, zero, List.append_assoc, List.cons_append, List.nil_append]

theorem udpHeader_bytes (d : Pcap.Datagram) :
    d.udpHeader = putBe16 d.sourcePort ++ putBe16 d.destinationPort ++ putBe16 (.ofNat 16 (8 + d.payload.length)) ++ [0#8, 0#8] := by
  have zero : Pcap.net.encode 0#16 = [0#8, 0#8] := rfl
  rw [Pcap.Datagram.udpHeader, putBe16_eq, putBe16_eq, putBe16_eq]
  simp only [Pcap.udpCodec, Codec.pair, zero, List.append_assoc]

section
variable (inetPton : String → Option (Bytes 4)) (o : Options)

/-- The datagram that a turn is written as. -/
def datagram (t : Taken) : Pcap.Datagram where
  source := t.sender.sinAddr
  destination := dst inetPton o t.sender
  sourcePort := .ofNat 16 (bigEndian t.sender.sinPort.1)
  destinationPort := o.port
  payload := t.bytes

theorem putBe16_port (port : Bytes 2) : putBe16 (.ofNat 16 (bigEndian port.1)) = port.1 := by
  rw [putBe16_eq]
  exact Pcap.net.encode_decode port.1 port.2

theorem exists_four (b : Bytes 4) : ∃ b₀ b₁ b₂ b₃, b.1 = [b₀, b₁, b₂, b₃] := by
  obtain ⟨bytes, four⟩ := b
  match bytes, four with
  | [b₀, b₁, b₂, b₃], _ => exact ⟨b₀, b₁, b₂, b₃, rfl⟩

variable {inetPton o}

/-- The headers are those of the datagram. -/
theorem packetHeader_eq (t : Taken) :
    packetHeader inetPton o t.sender (.ofNat 16 t.bytes.length) =
      (datagram inetPton o t).ipHeader 64 ((datagram inetPton o t).checksum 64) ++ (datagram inetPton o t).udpHeader := by
  have total : 20#16 + 8#16 + .ofNat 16 t.bytes.length = BitVec.ofNat 16 (28 + (datagram inetPton o t).payload.length) := by
    rw [BitVec.ofNat_add]
    rfl
  have behind : 8#16 + .ofNat 16 t.bytes.length = BitVec.ofNat 16 (8 + (datagram inetPton o t).payload.length) :=
    (BitVec.ofNat_add ..).symm
  obtain ⟨s₀, s₁, s₂, s₃, source⟩ := exists_four t.sender.sinAddr
  obtain ⟨d₀, d₁, d₂, d₃, destination⟩ := exists_four (dst inetPton o t.sender)
  have bare : bareHeader inetPton o t.sender (.ofNat 16 t.bytes.length) =
      (datagram inetPton o t).ipHeader 64 0#16 ++ List.replicate 8 0#8 := by
    rw [ipHeader_bytes, bareHeader, total]
    change _ = _ ++ t.sender.sinAddr.1 ++ (dst inetPton o t.sender).1 ++ _
    rw [source, destination]
    rfl
  have front : (bareHeader inetPton o t.sender (.ofNat 16 t.bytes.length)).take 20 = (datagram inetPton o t).ipHeader 64 0#16 := by
    rw [bare]
    exact List.take_left' (Pcap.ipCodec.length_encode _)
  have checksum : ipChecksum ((datagram inetPton o t).ipHeader 64 0#16) = (datagram inetPton o t).checksum 64 :=
    ipChecksum_eq (by rw [Pcap.Datagram.ipHeader, Pcap.ipCodec.length_encode]; decide)
  have sourcePort : putBe16 (datagram inetPton o t).sourcePort = t.sender.sinPort.1 := putBe16_port t.sender.sinPort
  rw [packetHeader, front, checksum, behind, bare, ipHeader_bytes, ipHeader_bytes, udpHeader_bytes, ← sourcePort]
  rw [show (datagram inetPton o t).source.1 = [s₀, s₁, s₂, s₃] from source,
    show (datagram inetPton o t).destination.1 = [d₀, d₁, d₂, d₃] from destination]
  rfl

/-! ## One turn -/

theorem put32_eq (v : BitVec 32) : put32 v = Pcap.whole.encode v := by
  have low : ∀ k : Nat, (v >>> k).setWidth 8 = BitVec.ofNat 8 (v.toNat / 2 ^ k) := fun k => by
    rw [← Nat.shiftRight_eq_div_pow, ← BitVec.toNat_ushiftRight, BitVec.ofNat_toNat]
  have first : v.setWidth 8 = BitVec.ofNat 8 v.toNat := (BitVec.ofNat_toNat ..).symm
  have digits : Pcap.whole.encode v = [BitVec.ofNat 8 v.toNat, BitVec.ofNat 8 (v.toNat / 256),
    BitVec.ofNat 8 (v.toNat / 256 / 256), BitVec.ofNat 8 (v.toNat / 256 / 256 / 256)] := rfl
  rw [put32, digits, first, low, low, low, Nat.div_div_eq_div_mul, Nat.div_div_eq_div_mul]
  rfl

/-- A header read is the header that stands there. -/
theorem encodeHeader_value (mem : Memory) (p : Nat) : encodeHeader ((Mold.decodeHeader p).value mem) = bytesAt mem p kHeaderSize := by
  have sequence : putBe64 ((be64 (p + kSessionSize)).value mem) = bytesAt mem (p + kSessionSize) 8 := by
    refine bigEndian_injective ?_ ?_
    · rw [putBe64, length_putBe64Loop, length_bytesAt]
      rfl
    · rw [bigEndian_putBe64, value_be64]
  have count : putBe16 ((be16 (p + kSessionSize + 8)).value mem) = bytesAt mem (p + kSessionSize + 8) 2 := by
    refine bigEndian_injective ?_ ?_
    · rw [length_bytesAt]
      rfl
    · rw [bigEndian_putBe16, value_be16]
  rw [bytesAt_header, encodeHeader]
  simp only [Mold.decodeHeader, value_bind, value_pure, value_readSession, sequence, count]

variable (inetPton o) in
/-- The record that a turn is written as. -/
def record (t : Taken) : Pcap.Record where
  seconds := t.tvSec.setWidth 32
  micros := t.tvUsec.setWidth 32
  original := .ofNat 32 (28 + t.bytes.length)
  packet := (datagram inetPton o t).encode 64

variable (inetPton o) in
theorem length_packet (t : Taken) : (record inetPton o t).packet.length = 28 + t.bytes.length := by
  rw [record, Pcap.Datagram.encode, List.length_append, List.length_append, Pcap.Datagram.ipHeader, Pcap.Datagram.udpHeader,
    Pcap.ipCodec.length_encode, Pcap.udpCodec.length_encode]
  rfl

/-- The lines printed of some datagrams, in numbers. -/
def printed (n : Nat) (ts : List Taken) : List (Nat × Nat × List Byte) :=
  ((ts.zipIdx n).filter fun p => kHeaderSize ≤ p.1.bytes.length).map fun p => (p.2, p.1.bytes.length, p.1.bytes.take kHeaderSize)

theorem printed_cons (n : Nat) (t : Taken) (ts : List Taken) : printed n (t :: ts) = printed n [t] ++ printed (n + 1) ts := by
  simp only [printed, List.zipIdx_cons, List.zipIdx_nil, ← List.map_append, ← List.filter_append, List.singleton_append]

end

section
variable {inetPton : String → Option (Bytes 4)} {o : Options}

/-- The buffer starts with the datagram. -/
theorem take_fill (buf : Buffer) {bytes : List Byte} (fits : bytes.length ≤ kBufferSize) {n : Nat} (within : n ≤ bytes.length) :
    (buf.fill bytes).val.take n = bytes.take n := by
  change (Store.apply buf.val ⟨0, bytes.take kBufferSize⟩).take n = _
  rw [Store.apply, List.take_zero, List.nil_append, List.take_of_length_le fits, List.take_append_of_le_length within]

variable (inetPton o) in
/-- A datagram is written as its record, and printed where it has a header. -/
theorem turn_datagram (s : State) {t : Taken} (fits : t.bytes.length ≤ 65507) : ∃ buf lines,
    turn inetPton o s (.datagram t) = (⟨s.n + 1, buf, s.file ++ (record inetPton o t).encode, s.lines ++ lines⟩, false) ∧
      lines.map CaptureLine.values = printed s.n [t] := by
  have size : kBufferSize = 65536 := rfl
  have whole : min t.bytes.length kBufferSize = t.bytes.length := by omega
  have payload : (BitVec.ofNat 16 t.bytes.length).toNat = t.bytes.length := by
    rw [BitVec.toNat_ofNat, Nat.mod_eq_of_lt (by omega)]
  have length : 28#32 + (BitVec.ofNat 16 t.bytes.length).setWidth 32 = BitVec.ofNat 32 (28 + t.bytes.length) := by
    rw [BitVec.ofNat_add]
    congr 1
    apply BitVec.eq_of_toNat_eq
    rw [BitVec.toNat_setWidth, payload, BitVec.toNat_ofNat]
  have written : s.file ++ put32 (t.tvSec.setWidth 32) ++ put32 (t.tvUsec.setWidth 32) ++ put32 (BitVec.ofNat 32 (28 + t.bytes.length)) ++
      put32 (BitVec.ofNat 32 (28 + t.bytes.length)) ++ packetHeader inetPton o t.sender (.ofNat 16 t.bytes.length) ++
        (s.buf.fill t.bytes).val.take t.bytes.length = s.file ++ (record inetPton o t).encode := by
    rw [take_fill s.buf (by omega) (le_refl _), List.take_length, packetHeader_eq, Pcap.Record.encode, length_packet]
    simp only [put32_eq, record, Pcap.recordCodec, Codec.pair, Pcap.Datagram.encode, datagram, List.append_assoc]
  rw [turn, whole, payload, length, written]
  by_cases header : kHeaderSize ≤ t.bytes.length
  · refine ⟨_, [⟨s.n, t.bytes.length, (Mold.decodeHeader 0).value (memoryOf (s.buf.fill t.bytes).val)⟩], by rw [if_pos header], ?_⟩
    have bytes : bytesAt (memoryOf (s.buf.fill t.bytes).val) 0 kHeaderSize = t.bytes.take kHeaderSize := by
      rw [bytesAt_memoryOf (by rw [(s.buf.fill t.bytes).2]; decide)]
      exact take_fill s.buf (by omega) header
    rw [List.map_singleton, CaptureLine.values, encodeHeader_value, bytes, printed, List.zipIdx_cons, List.zipIdx_nil,
      List.filter_singleton]
    simp only [header, decide_true, cond_true, List.map_singleton]
  · refine ⟨_, [], by rw [if_neg header, List.append_nil], ?_⟩
    rw [printed, List.zipIdx_cons, List.zipIdx_nil, List.filter_singleton]
    simp only [header, decide_false, cond_false, List.map_nil]

/-! ## The run -/

/-- What is taken up to the first failure. -/
def taken : List Turn → List Taken
  | .datagram t :: turns => t :: taken turns
  | _ => []

variable (inetPton o) in
/-- The loop writes a record for each datagram. -/
theorem loop (s : State) {turns : List Turn} (fit : ∀ t ∈ taken turns, t.bytes.length ≤ 65507) : ∃ s' lines,
    Runs.afterUntil (turn inetPton o) s turns = (s', decide (.failed ∈ turns)) ∧
      s'.file = s.file ++ (taken turns).flatMap (fun t => (record inetPton o t).encode) ∧
      s'.lines = s.lines ++ lines ∧ lines.map CaptureLine.values = printed s.n (taken turns) := by
  induction turns generalizing s with
  | nil => exact ⟨s, [], rfl, (List.append_nil _).symm, (List.append_nil _).symm, rfl⟩
  | cons c turns ih =>
    cases c with
    | failed =>
      refine ⟨s, [], ?_, (List.append_nil _).symm, (List.append_nil _).symm, rfl⟩
      rw [Runs.afterUntil, turn, if_pos rfl, decide_eq_true List.mem_cons_self]
    | datagram t =>
      obtain ⟨fits, later⟩ := List.forall_mem_cons.mp fit
      obtain ⟨buf, lines, here, line⟩ := turn_datagram inetPton o s fits
      obtain ⟨s', lines', rest, file, printed', values⟩ := ih ⟨s.n + 1, buf, s.file ++ (record inetPton o t).encode, s.lines ++ lines⟩ later
      refine ⟨s', lines ++ lines', ?_, ?_, ?_, ?_⟩
      · rw [Runs.afterUntil, here, if_neg Bool.false_ne_true, rest]
        simp
      · rw [file, taken, List.flatMap_cons, List.append_assoc]
      · rw [printed', List.append_assoc]
      · rw [List.map_append, line, values, taken]
        exact (printed_cons s.n t (taken turns)).symm

end

theorem fileHeader_eq : fileHeader = Pcap.fileCodec.encode (Pcap.magic, 2#16, 4#16, 0#32, 0#32, 65535#32, 228#32) := by
  decide

theorem mem_taken {turns : List Turn} {t : Taken} (member : t ∈ taken turns) : Turn.datagram t ∈ turns := by
  induction turns with
  | nil => cases member
  | cons c turns ih =>
    cases c with
    | failed => cases member
    | datagram t' =>
      rcases List.mem_cons.mp member with rfl | later
      · exact List.mem_cons_self
      · exact List.mem_cons_of_mem _ (ih later)

/-- What `main` leaves of the turns its loop asks for. -/
structure Captured (inetPton : String → Option (Bytes 4)) (o : Options) (turns : List Turn) (r : Result) : Prop where
  /-- The file is read as the datagrams taken, in order and with their times, and no packet in it is cut. -/
  file : ∃ bytes f, r.file = some bytes ∧ Pcap.read bytes = some f ∧ f.linkType = 228#32 ∧
    (∀ r ∈ f.records, r.original.toNat = r.packet.length ∧ r.packet.length ≤ f.snapLength.toNat) ∧
      f.records.map (fun r => (r.seconds, r.micros, Pcap.Datagram.ofPacket r.packet)) =
        (taken turns).map fun t => (t.tvSec.setWidth 32, t.tvUsec.setWidth 32, some (datagram inetPton o t))
  /-- A line is printed of each that can have a header: its number, its length, and the header that it starts with. -/
  lines : r.lines.map CaptureLine.values = printed 0 (taken turns)
  exit : r.exit = if .failed ∈ turns ∨ o.count ≤ turns.length then some 0 else none

/-- **Capture.** Datagrams are as long as IPv4 lets them. -/
theorem mold_capture (inetPton : String → Option (Bytes 4)) (setup : Setup) {args : List String} {o : Options} {turns : List Turn}
    (accepted : parseArgs {} args = some o) (binds : setup.binds = true) (joins : o.group = "" ∨ setup.joins = true)
    (opens : setup.opens = true) (fit : ∀ t, Turn.datagram t ∈ turns → t.bytes.length ≤ 65507) :
    Captured inetPton o (turns.take o.count.toNat) (main inetPton setup args turns) := by
  have short : ∀ t ∈ taken (turns.take o.count.toNat), t.bytes.length ≤ 65507 := fun t member =>
    fit t (List.mem_of_mem_take (mem_taken member))
  obtain ⟨s', lines, run, file, printed', values⟩ := loop inetPton o { file := fileHeader } short
  have joined : ¬(o.group ≠ "" && !setup.joins) = true := by
    rcases joins with unicast | joins
    · simp [unicast]
    · simp [joins]
  have result : main inetPton setup args turns =
      { exit := if decide (.failed ∈ turns.take o.count.toNat) || o.count ≤ turns.length then some 0 else none
        file := some s'.file, lines := s'.lines } := by
    rw [main, accepted]
    dsimp only
    rw [binds, opens, if_neg (by decide), if_neg joined, if_neg (by decide), run]
  let f : Pcap.File := ⟨65535#32, 228#32, (taken (turns.take o.count.toNat)).map (record inetPton o)⟩
  have encoded : s'.file = f.encode := by
    rw [file, Pcap.File.encode, List.flatMap_map, fileHeader_eq]
  have packets : ∀ r ∈ f.records, r.packet.length < 2 ^ 16 ∧ r.original.toNat = r.packet.length := by
    intro r member
    obtain ⟨t, here, rfl⟩ := List.mem_map.mp member
    have fits := short t here
    have length := length_packet inetPton o t
    refine ⟨by omega, ?_⟩
    rw [length, record, BitVec.toNat_ofNat, Nat.mod_eq_of_lt (by omega)]
  rw [result]
  refine ⟨⟨s'.file, f, rfl, ?_, rfl, fun r member => ?_, ?_⟩, ?_, ?_⟩
  · rw [encoded]
    exact Pcap.read_encode fun r member => (packets r member).1.trans (by decide)
  · exact ⟨(packets r member).2, Nat.le_of_lt_succ (packets r member).1⟩
  · rw [List.map_map]
    refine List.map_congr_left fun t member => ?_
    have fits := short t member
    have read : Pcap.Datagram.ofPacket (record inetPton o t).packet = some (datagram inetPton o t) :=
      Pcap.ofPacket_encode (d := datagram inetPton o t) (by
        change 28 + t.bytes.length < _
        omega) 64
    rw [Function.comp_apply, read]
    rfl
  · rw [printed', List.nil_append, values]
  · have asked : o.count ≤ (turns.take o.count.toNat).length ↔ o.count ≤ turns.length := by
      rw [List.length_take]
      omega
    simp only [asked, Bool.or_eq_true, decide_eq_true_eq]

/-- A heartbeat and a datagram of one byte, and then a call that fails. -/
def heartbeatAndByte : List Turn :=
  let sender : SockaddrIn := ⟨⟨[0, 7], rfl⟩, ⟨[127, 0, 0, 1], rfl⟩⟩
  let heartbeat := encodeHeader ⟨⟨List.replicate 10 65#8, rfl⟩, 7#64, 0#16⟩
  [.datagram ⟨heartbeat, sender, 3, 4⟩, .datagram ⟨[1#8], sender, 5, 6⟩, .failed]

/-- Asked for three it ends at the failure; asked for two it does not get there. -/
theorem mold_capture_two :
    Captured (fun _ => none) { count := 3 } heartbeatAndByte
        (main (fun _ => none) ⟨true, true, true⟩ ["--count", "3"] heartbeatAndByte) ∧
      Captured (fun _ => none) { count := 2 } (heartbeatAndByte.take 2)
        (main (fun _ => none) ⟨true, true, true⟩ ["--count", "2"] heartbeatAndByte) := by
  have fit : ∀ t, Turn.datagram t ∈ heartbeatAndByte → t.bytes.length ≤ 65507 := by
    intro t member
    rcases List.mem_cons.mp member with first | member
    · rw [Turn.datagram.inj first]
      decide
    · rcases List.mem_cons.mp member with second | member
      · rw [Turn.datagram.inj second]
        decide
      · cases List.mem_singleton.mp member
  have three : parseArgs {} ["--count", "3"] = some { count := 3 } := by
    have count : atoi "3" = 3 := by decide
    rw [parseArgs, parseArgs, count]
  have two : parseArgs {} ["--count", "2"] = some { count := 2 } := by
    have count : atoi "2" = 2 := by decide
    rw [parseArgs, parseArgs, count]
  have failure := mold_capture (fun _ => none) ⟨true, true, true⟩ three rfl (.inl rfl) rfl fit
  have full := mold_capture (fun _ => none) ⟨true, true, true⟩ two rfl (.inl rfl) rfl fit
  exact ⟨failure, full⟩

end Capture
end Nts.Apps
