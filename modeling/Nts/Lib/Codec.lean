import Nts.Common.ByteReader

/-!
# Fixed layouts

A codec writes the values of a type in a fixed number of bytes, every string of that length for exactly one value.
Fields one behind the other are a codec again, so a record's layout is the product of its
fields'. `reads` is what a codec finds in memory.
-/

namespace Nts
open Reading

/-- The values of `α` in `width` bytes each. -/
structure Codec (α : Type*) where
  width : Nat
  encode : α → List (BitVec 8)
  decode : List (BitVec 8) → α
  length_encode : ∀ a, (encode a).length = width
  decode_encode : ∀ a, decode (encode a) = a
  encode_decode : ∀ bytes, bytes.length = width → encode (decode bytes) = bytes

/-- Exactly `n` bytes. -/
abbrev Bytes (n : Nat) := { bytes : List (BitVec 8) // bytes.length = n }

/-- The last `n` digits of a number to the base 256, the most significant first. -/
def digits : Nat → Nat → List (BitVec 8)
  | 0, _ => []
  | n + 1, x => digits n (x / 256) ++ [.ofNat 8 x]

theorem length_digits (n x : Nat) : (digits n x).length = n := by
  induction n generalizing x with
  | zero => rfl
  | succ n ih => rw [digits, List.length_append, ih, List.length_singleton]

theorem bigEndian_digits {n x : Nat} (small : x < 256 ^ n) : bigEndian (digits n x) = x := by
  induction n generalizing x with
  | zero =>
    rw [pow_zero, Nat.lt_one_iff] at small
    subst small
    rfl
  | succ n ih =>
    have last : bigEndian [BitVec.ofNat 8 x] = x % 256 := by
      simp only [bigEndian, List.foldl_cons, List.foldl_nil, Nat.zero_mul, Nat.zero_add, BitVec.toNat_ofNat]
    rw [pow_succ] at small
    rw [digits, bigEndian_append, ih (by omega), last, List.length_singleton, pow_one]
    omega

/-- As many digits stand for one number only. -/
theorem bigEndian_injective {bytes bytes' : List (BitVec 8)} (length : bytes.length = bytes'.length)
    (same : bigEndian bytes = bigEndian bytes') : bytes = bytes' := by
  induction bytes using List.reverseRecOn generalizing bytes' with
  | nil => exact (List.length_eq_zero_iff.mp length.symm).symm
  | append_singleton bytes b ih =>
    cases bytes' using List.reverseRecOn with
    | nil => rw [List.length_append, List.length_singleton, List.length_nil] at length; omega
    | append_singleton bytes' b' =>
      have one : ∀ b : BitVec 8, bigEndian [b] = b.toNat := fun b => by
        simp only [bigEndian, List.foldl_cons, List.foldl_nil, Nat.zero_mul, Nat.zero_add]
      have byte := b.isLt
      have byte' := b'.isLt
      simp only [List.length_append, List.length_singleton, Nat.add_right_cancel_iff] at length
      simp only [bigEndian_append, one, List.length_singleton, pow_one] at same
      have last : b = b' := BitVec.eq_of_toNat_eq (by omega)
      rw [ih length (by omega), last]

namespace Codec

/-- Bytes as they are. -/
def bytes (n : Nat) : Codec (Bytes n) where
  width := n
  encode b := b.1
  decode bytes := if same : bytes.length = n then ⟨bytes, same⟩ else ⟨List.replicate n 0, List.length_replicate⟩
  length_encode b := b.2
  decode_encode b := by rw [dif_pos b.2]
  encode_decode bytes same := by rw [dif_pos same]

/-- One byte. -/
def byte : Codec (BitVec 8) where
  width := 1
  encode b := [b]
  decode bytes := bytes.headD 0
  length_encode _ := rfl
  decode_encode _ := rfl
  encode_decode bytes one := by
    obtain ⟨b, rfl⟩ := List.length_eq_one_iff.mp one
    rfl

theorem two_pow_width {n w : Nat} (wide : w = 8 * n) : 2 ^ w = 256 ^ n := by
  rw [wide, show 256 = 2 ^ 8 from rfl, ← pow_mul]

/-- A word of `n` bytes, the most significant first. -/
def word (n : Nat) {w : Nat} (wide : w = 8 * n) : Codec (BitVec w) where
  width := n
  encode x := digits n x.toNat
  decode bytes := .ofNat w (bigEndian bytes)
  length_encode x := length_digits n _
  decode_encode x := by
    rw [bigEndian_digits (two_pow_width wide ▸ x.isLt), BitVec.ofNat_toNat, BitVec.setWidth_eq]
  encode_decode bytes same := by
    have small := bigEndian_lt bytes
    rw [same] at small
    have wider : (BitVec.ofNat w (bigEndian bytes)).toNat = bigEndian bytes := by
      rw [BitVec.toNat_ofNat, two_pow_width wide, Nat.mod_eq_of_lt small]
    rw [wider]
    exact bigEndian_injective ((length_digits n _).trans same.symm) (bigEndian_digits small)

variable {α β : Type*}

/-- One field behind the other. -/
def pair (c : Codec α) (d : Codec β) : Codec (α × β) where
  width := c.width + d.width
  encode a := c.encode a.1 ++ d.encode a.2
  decode bytes := (c.decode (bytes.take c.width), d.decode (bytes.drop c.width))
  length_encode a := by rw [List.length_append, c.length_encode, d.length_encode]
  decode_encode a := by
    rw [List.take_left' (c.length_encode a.1), List.drop_left' (c.length_encode a.1), c.decode_encode, d.decode_encode]
  encode_decode bytes same := by
    have first : (bytes.take c.width).length = c.width := by rw [List.length_take]; omega
    have second : (bytes.drop c.width).length = d.width := by rw [List.length_drop]; omega
    rw [c.encode_decode _ first, d.encode_decode _ second, List.take_append_drop]

/-- The same bytes, the last one first: a word from its least significant byte on. -/
def backwards (c : Codec α) : Codec α where
  width := c.width
  encode a := (c.encode a).reverse
  decode bytes := c.decode bytes.reverse
  length_encode a := by rw [List.length_reverse, c.length_encode]
  decode_encode a := by rw [List.reverse_reverse, c.decode_encode]
  encode_decode bytes same := by rw [c.encode_decode _ (by rw [List.length_reverse, same]), List.reverse_reverse]

/-- A string of the width is the encoding of one value. -/
theorem encode_eq_iff (c : Codec α) {a : α} {bytes : List (BitVec 8)} :
    c.encode a = bytes ↔ bytes.length = c.width ∧ c.decode bytes = a := by
  constructor
  · rintro rfl
    exact ⟨c.length_encode a, c.decode_encode a⟩
  · rintro ⟨same, rfl⟩
    exact c.encode_decode bytes same

/-! ## In memory -/

/-- The value whose encoding stands at an address. -/
def reads (c : Codec α) (mem : Memory) (p : Nat) : α := c.decode (bytesAt mem p c.width)

variable {mem : Memory} {p : Nat}

theorem reads_of_bytes (c : Codec α) {a : α} (here : bytesAt mem p c.width = c.encode a) : c.reads mem p = a := by
  rw [reads, here, c.decode_encode]

theorem reads_pair (c : Codec α) (d : Codec β) : (c.pair d).reads mem p = (c.reads mem p, d.reads mem (p + c.width)) := by
  change (c.decode ((bytesAt mem p (c.width + d.width)).take c.width), d.decode ((bytesAt mem p (c.width + d.width)).drop c.width)) = _
  rw [bytesAt_add, List.take_left' (length_bytesAt ..), List.drop_left' (length_bytesAt ..)]
  rfl

theorem value_read_eq (mem : Memory) (p : Nat) : (read p).value mem = byte.reads mem p := rfl

theorem value_readBytes_eq (mem : Memory) (p n : Nat) : (readBytes p n).value mem = ((bytes n).reads mem p).1 := by
  have found : (bytes n).reads mem p = ⟨bytesAt mem p n, length_bytesAt mem p n⟩ := dif_pos (length_bytesAt mem p n)
  rw [value_readBytes, found]

/-- A word that a reader returns is the word that stands there. -/
theorem reads_word {n w : Nat} (wide : w = 8 * n) {x : BitVec w} (read : x.toNat = bigEndian (bytesAt mem p n)) :
    x = (word n wide).reads mem p := by
  apply BitVec.eq_of_toNat_eq
  change _ = (BitVec.ofNat w (bigEndian (bytesAt mem p n))).toNat
  rw [← read, BitVec.ofNat_toNat, BitVec.setWidth_eq]

theorem value_be16_eq (mem : Memory) (p : Nat) : (be16 p).value mem = (word 2 rfl).reads mem p :=
  reads_word rfl (value_be16 mem p)

theorem value_be32_eq (mem : Memory) (p : Nat) : (be32 p).value mem = (word 4 rfl).reads mem p :=
  reads_word rfl (value_be32 mem p)

theorem value_be64_eq (mem : Memory) (p : Nat) : (be64 p).value mem = (word 8 rfl).reads mem p :=
  reads_word rfl (value_be64 mem p)

/-- Six bytes, widened. -/
theorem value_be48_eq (mem : Memory) (p : Nat) :
    (be48 p).value mem = ((word 6 (w := 48) rfl).reads mem p).setWidth 64 := by
  have small := bigEndian_lt (bytesAt mem p 6)
  rw [length_bytesAt] at small
  apply BitVec.eq_of_toNat_eq
  have narrow : ((word 6 (w := 48) rfl).reads mem p).toNat = bigEndian (bytesAt mem p 6) := by
    change (BitVec.ofNat 48 (bigEndian (bytesAt mem p 6))).toNat = _
    rw [BitVec.toNat_ofNat, two_pow_width (n := 6) rfl, Nat.mod_eq_of_lt small]
  rw [BitVec.toNat_setWidth, narrow, be48, value_beLoop mem p 6 0 0#64 (by decide) (by decide), BitVec.toNat_ofNat,
    Nat.zero_mod, Nat.zero_mul, Nat.zero_add, Nat.add_zero, Nat.mod_eq_of_lt (by omega)]

end Codec
end Nts
