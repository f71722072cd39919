import Nts.Lib.Codec
import Nts.Lib.OnesComplement

/-!
# Captures of UDP datagrams

A reader of capture files in the order of a little-endian host, and of the IPv4 packets without options that carry a whole
UDP datagram. It is strict: a packet is read only where its lengths agree with each other and its header's words add up.
`read_encode` and `ofPacket_encode` say that what is encoded is read back.
-/

namespace Nts.Pcap
open Codec

/-! ## Files -/

/-- A packet behind its record header. -/
structure Record where
  seconds : BitVec 32
  micros : BitVec 32
  /-- The length of the packet on the wire. -/
  original : BitVec 32
  packet : List (BitVec 8)
  deriving DecidableEq, Repr

structure File where
  snapLength : BitVec 32
  linkType : BitVec 32
  records : List Record
  deriving DecidableEq, Repr

theorem wide_half : 16 = 8 * 2 := rfl

theorem wide_whole : 32 = 8 * 4 := rfl

/-- Half a word in the order of the host. -/
def half : Codec (BitVec 16) := (word 2 wide_half).backwards

/-- A word in the order of the host. -/
def whole : Codec (BitVec 32) := (word 4 wide_whole).backwards

/-- Magic, version, zone, accuracy, snapshot length, link type. -/
def fileCodec : Codec (BitVec 32 × BitVec 16 × BitVec 16 × BitVec 32 × BitVec 32 × BitVec 32 × BitVec 32) :=
  whole.pair (half.pair (half.pair (whole.pair (whole.pair (whole.pair whole)))))

/-- Seconds, microseconds, length in the file, length on the wire. -/
def recordCodec : Codec (BitVec 32 × BitVec 32 × BitVec 32 × BitVec 32) :=
  whole.pair (whole.pair (whole.pair whole))

def magic : BitVec 32 := 0xa1b2c3d4#32

/-- The first record and the bytes behind it. -/
def splitRecord (bytes : List (BitVec 8)) : Option (Record × List (BitVec 8)) :=
  if bytes.length < recordCodec.width then none
  else
    let (seconds, micros, captured, original) := recordCodec.decode (bytes.take recordCodec.width)
    let behind := bytes.drop recordCodec.width
    if behind.length < captured.toNat then none
    else some (⟨seconds, micros, original, behind.take captured.toNat⟩, behind.drop captured.toNat)

theorem splitRecord_shorter {bytes rest : List (BitVec 8)} {r : Record} (split : splitRecord bytes = some (r, rest)) :
    rest.length < bytes.length := by
  have width : recordCodec.width = 16 := rfl
  unfold splitRecord at split
  split at split
  · cases split
  · dsimp only at split
    split at split
    · cases split
    · simp only [Option.some.injEq, Prod.mk.injEq] at split
      obtain ⟨_, rfl⟩ := split
      simp only [List.length_drop]
      omega

/-- All records, where nothing is left behind the last. -/
def records (bytes : List (BitVec 8)) : Option (List Record) :=
  if bytes = [] then some []
  else
    match split : splitRecord bytes with
    | none => none
    | some (r, rest) =>
      have := splitRecord_shorter split
      (records rest).map (r :: ·)
termination_by bytes.length

/-- The file that some bytes are. -/
def read (bytes : List (BitVec 8)) : Option File :=
  if bytes.length < fileCodec.width then none
  else
    let (magic', major, minor, _, _, snapLength, linkType) := fileCodec.decode (bytes.take fileCodec.width)
    if magic' = magic ∧ major = 2#16 ∧ minor = 4#16 then
      (records (bytes.drop fileCodec.width)).map fun records => ⟨snapLength, linkType, records⟩
    else none

def Record.encode (r : Record) : List (BitVec 8) :=
  recordCodec.encode (r.seconds, r.micros, .ofNat 32 r.packet.length, r.original) ++ r.packet

def File.encode (f : File) : List (BitVec 8) :=
  fileCodec.encode (magic, 2#16, 4#16, 0#32, 0#32, f.snapLength, f.linkType) ++ f.records.flatMap Record.encode

theorem splitRecord_encode {r : Record} (fits : r.packet.length < 2 ^ 32) (rest : List (BitVec 8)) :
    splitRecord (r.encode ++ rest) = some (r, rest) := by
  have head : (recordCodec.encode (r.seconds, r.micros, .ofNat 32 r.packet.length, r.original)).length = recordCodec.width :=
    recordCodec.length_encode _
  have captured : (BitVec.ofNat 32 r.packet.length).toNat = r.packet.length := by
    rw [BitVec.toNat_ofNat, Nat.mod_eq_of_lt fits]
  rw [splitRecord, Record.encode, List.append_assoc, List.take_left' head, List.drop_left' head, recordCodec.decode_encode,
    if_neg (by rw [List.length_append, head]; omega)]
  dsimp only
  rw [captured, List.take_left' rfl, List.drop_left' rfl, if_neg (by rw [List.length_append]; omega)]

theorem records_flatMap {rs : List Record} (fit : ∀ r ∈ rs, r.packet.length < 2 ^ 32) :
    records (rs.flatMap Record.encode) = some rs := by
  induction rs with
  | nil => rw [List.flatMap_nil, records, if_pos rfl]
  | cons r rs ih =>
    obtain ⟨fits, later⟩ := List.forall_mem_cons.mp fit
    have split := splitRecord_encode fits (rs.flatMap Record.encode)
    have nonempty : r.encode ++ rs.flatMap Record.encode ≠ [] := by
      intro empty
      rw [empty] at split
      cases split
    rw [List.flatMap_cons, records, if_neg nonempty]
    split
    · next other => rw [split] at other; cases other
    · next other =>
      rw [split] at other
      cases other
      rw [ih later, Option.map_some]

/-- A file is read back. -/
theorem read_encode {f : File} (fit : ∀ r ∈ f.records, r.packet.length < 2 ^ 32) : read f.encode = some f := by
  have head := fileCodec.length_encode (magic, 2#16, 4#16, 0#32, 0#32, f.snapLength, f.linkType)
  rw [read, File.encode, List.take_left' head, List.drop_left' head, fileCodec.decode_encode,
    if_neg (by rw [List.length_append, head]; omega)]
  dsimp only
  rw [if_pos ⟨rfl, rfl, rfl⟩, records_flatMap fit, Option.map_some]

/-! ## Packets -/

structure Datagram where
  source : Bytes 4
  destination : Bytes 4
  sourcePort : BitVec 16
  destinationPort : BitVec 16
  payload : List (BitVec 8)
  deriving DecidableEq, Repr

/-- Half a word in the order of the network. -/
def net : Codec (BitVec 16) := word 2 wide_half

/-- The sum of the words of some bytes. -/
def wordSum : List (BitVec 8) → Nat
  | high :: low :: rest => bigEndian [high, low] + wordSum rest
  | _ => 0

theorem wordSum_append {bytes : List (BitVec 8)} (even : 2 ∣ bytes.length) (bytes' : List (BitVec 8)) :
    wordSum (bytes ++ bytes') = wordSum bytes + wordSum bytes' := by
  induction bytes using wordSum.induct with
  | case1 high low rest ih =>
    have shorter : 2 ∣ rest.length := by
      simp only [List.length_cons] at even
      omega
    rw [List.cons_append, List.cons_append, wordSum, wordSum, ih shorter, Nat.add_assoc]
  | case2 bytes single =>
    cases bytes with
    | nil => exact (Nat.zero_add _).symm
    | cons b bytes =>
      cases bytes with
      | nil =>
        rw [List.length_singleton] at even
        omega
      | cons b' bytes => exact (single b b' bytes rfl).elim

theorem wordSum_word (x : BitVec 16) : wordSum (net.encode x) = x.toNat := by
  have small := x.isLt
  change wordSum (digits 2 x.toNat) = _
  have two : wordSum (digits 2 x.toNat) = bigEndian (digits 2 x.toNat) + 0 := rfl
  rw [two, bigEndian_digits (by omega), Nat.add_zero]

/-- Version and header length, service, total length, identification, fragment, time to live, protocol. -/
def ipFront : Codec (BitVec 8 × BitVec 8 × BitVec 16 × BitVec 16 × BitVec 16 × BitVec 8 × BitVec 8) :=
  byte.pair (byte.pair (net.pair (net.pair (net.pair (byte.pair byte)))))

/-- Behind them the checksum and the addresses. -/
def ipCodec : Codec ((BitVec 8 × BitVec 8 × BitVec 16 × BitVec 16 × BitVec 16 × BitVec 8 × BitVec 8) ×
    BitVec 16 × Bytes 4 × Bytes 4) :=
  ipFront.pair (net.pair ((bytes 4).pair (bytes 4)))

/-- Ports, length, checksum. -/
def udpCodec : Codec (BitVec 16 × BitVec 16 × BitVec 16 × BitVec 16) :=
  net.pair (net.pair (net.pair net))

/-- The words of a header add up to all ones. -/
def Verifies (header : List (BitVec 8)) : Prop := OnesComplement.fold (2 ^ 16) (wordSum header) = 2 ^ 16 - 1

instance (header : List (BitVec 8)) : Decidable (Verifies header) := inferInstanceAs (Decidable (_ = _))

/-- The datagram that a packet carries: IPv4 without options and whole, UDP without a checksum of its own. -/
def Datagram.ofPacket (packet : List (BitVec 8)) : Option Datagram :=
  if packet.length < ipCodec.width + udpCodec.width then none
  else
    let ((version, _, total, _, fragment, _, protocol), _, source, destination) := ipCodec.decode (packet.take ipCodec.width)
    let (sourcePort, destinationPort, length, checksum) := udpCodec.decode ((packet.drop ipCodec.width).take udpCodec.width)
    if version = 0x45#8 ∧ total.toNat = packet.length ∧ fragment = 0#16 ∧ protocol = 17#8 ∧
        Verifies (packet.take ipCodec.width) ∧ length.toNat = (packet.drop ipCodec.width).length ∧ checksum = 0#16 then
      some ⟨source, destination, sourcePort, destinationPort, (packet.drop ipCodec.width).drop udpCodec.width⟩
    else none

/-- The IPv4 header of a datagram, with some time to live and checksum. -/
def Datagram.ipHeader (d : Datagram) (timeToLive : BitVec 8) (checksum : BitVec 16) : List (BitVec 8) :=
  ipCodec.encode ((0x45#8, 0#8, .ofNat 16 (28 + d.payload.length), 0#16, 0#16, timeToLive, 17#8), checksum, d.source, d.destination)

def Datagram.udpHeader (d : Datagram) : List (BitVec 8) :=
  udpCodec.encode (d.sourcePort, d.destinationPort, .ofNat 16 (8 + d.payload.length), 0#16)

/-- The checksum that makes the words add up. -/
def Datagram.checksum (d : Datagram) (timeToLive : BitVec 8) : BitVec 16 :=
  .ofNat 16 (2 ^ 16 - 1 - OnesComplement.fold (2 ^ 16) (wordSum (d.ipHeader timeToLive 0#16)))

def Datagram.encode (d : Datagram) (timeToLive : BitVec 8) : List (BitVec 8) :=
  d.ipHeader timeToLive (d.checksum timeToLive) ++ d.udpHeader ++ d.payload

theorem ipHeader_eq (d : Datagram) (timeToLive : BitVec 8) (checksum : BitVec 16) : d.ipHeader timeToLive checksum =
    ipFront.encode (0x45#8, 0#8, .ofNat 16 (28 + d.payload.length), 0#16, 0#16, timeToLive, 17#8) ++
      (net.encode checksum ++ ((bytes 4).pair (bytes 4)).encode (d.source, d.destination)) := rfl

theorem wordSum_ipHeader (d : Datagram) (timeToLive : BitVec 8) (checksum : BitVec 16) :
    wordSum (d.ipHeader timeToLive checksum) = wordSum (d.ipHeader timeToLive 0#16) + checksum.toNat := by
  have front : ∀ a, 2 ∣ (ipFront.encode a).length := fun a => by
    rw [ipFront.length_encode]
    decide
  have word : ∀ x : BitVec 16, 2 ∣ (net.encode x).length := fun x => by
    rw [Codec.length_encode]
    exact dvd_refl 2
  simp only [ipHeader_eq, wordSum_append (front _), wordSum_append (word _), wordSum_word, BitVec.toNat_ofNat, Nat.zero_mod]
  omega

theorem verifies_ipHeader (d : Datagram) (timeToLive : BitVec 8) : Verifies (d.ipHeader timeToLive (d.checksum timeToLive)) := by
  have complement := OnesComplement.fold_add_complement (b := 2 ^ 16) (by decide) (wordSum (d.ipHeader timeToLive 0#16))
  have digit : (d.checksum timeToLive).toNat =
      2 ^ 16 - 1 - OnesComplement.fold (2 ^ 16) (wordSum (d.ipHeader timeToLive 0#16)) := by
    rw [Datagram.checksum, BitVec.toNat_ofNat, Nat.mod_eq_of_lt (by omega)]
  rw [Verifies, wordSum_ipHeader, digit, complement]

/-- A datagram that fits a packet is read back. -/
theorem ofPacket_encode {d : Datagram} (fits : 28 + d.payload.length < 2 ^ 16) (timeToLive : BitVec 8) :
    Datagram.ofPacket (d.encode timeToLive) = some d := by
  have ip : (d.ipHeader timeToLive (d.checksum timeToLive)).length = ipCodec.width := ipCodec.length_encode _
  have udp : d.udpHeader.length = udpCodec.width := udpCodec.length_encode _
  have ipWidth : ipCodec.width = 20 := rfl
  have udpWidth : udpCodec.width = 8 := rfl
  have length : (d.encode timeToLive).length = 28 + d.payload.length := by
    rw [Datagram.encode, List.length_append, List.length_append, ip, udp, ipWidth, udpWidth]
  have total : (BitVec.ofNat 16 (28 + d.payload.length)).toNat = 28 + d.payload.length := by
    rw [BitVec.toNat_ofNat, Nat.mod_eq_of_lt fits]
  have behind : (BitVec.ofNat 16 (8 + d.payload.length)).toNat = (d.udpHeader ++ d.payload).length := by
    rw [BitVec.toNat_ofNat, Nat.mod_eq_of_lt (by omega), List.length_append, udp, udpWidth]
  have split : d.encode timeToLive = d.ipHeader timeToLive (d.checksum timeToLive) ++ (d.udpHeader ++ d.payload) :=
    List.append_assoc ..
  have ipRead : ipCodec.decode (d.ipHeader timeToLive (d.checksum timeToLive)) = _ := ipCodec.decode_encode _
  have udpRead : udpCodec.decode d.udpHeader = _ := udpCodec.decode_encode _
  rw [Datagram.ofPacket, if_neg (by rw [length]; omega), length, split, List.take_left' ip, List.drop_left' ip,
    List.take_left' udp, List.drop_left' udp, ipRead, udpRead]
  dsimp only
  exact if_pos ⟨rfl, total, rfl, rfl, verifies_ipHeader d timeToLive, behind, rfl⟩

end Nts.Pcap
