import Nts.Lib.Reading

/-!
# Big-endian readers (`common/byte_reader.h`)

`be16` to `be64` as readings: each asks for exactly its width of bytes from its
pointer on and checks nothing. `bigEndian` is the number a list of bytes stands
for, most significant byte first.
-/

namespace Nts
open Reading

/-- The loop of the readers: `left` more bytes from `p[i]` on into `res`. -/
def beLoop {w : Nat} (p : Nat) : Nat → Nat → BitVec w → Reading (BitVec w)
  | 0, _, res => pure res
  | left + 1, i, res => do
    let b ← read (p + i)
    beLoop p left (i + 1) (res <<< 8 ||| b.setWidth w)

/-- `be16`; the accumulator has 32 bits. -/
def be16 (p : Nat) : Reading (BitVec 16) := do
  let res ← beLoop p 2 0 0#32
  pure (res.setWidth 16)

/-- `be32`. -/
def be32 (p : Nat) : Reading (BitVec 32) := beLoop p 4 0 0#32

/-- `be48`; widened to 64 bits. -/
def be48 (p : Nat) : Reading (BitVec 64) := beLoop p 6 0 0#64

/-- `be64`. -/
def be64 (p : Nat) : Reading (BitVec 64) := beLoop p 8 0 0#64

/-- The number that some bytes stand for, most significant byte first. -/
def bigEndian (bytes : List (BitVec 8)) : Nat := bytes.foldl (fun n b => n * 256 + b.toNat) 0

/-! ## What they read -/

section
variable {mem : Memory} {base size : Nat}

/-- The loop reads its whole range and nothing else. -/
theorem trace_beLoop {w : Nat} (p left i : Nat) (res : BitVec w) :
    (beLoop p left i res).trace mem = List.range' (p + i) left := by
  induction left generalizing i res with
  | zero => rfl
  | succ left ih =>
    simp only [beLoop, trace_bind, trace_read, List.singleton_append, List.range'_succ, ih]
    rfl

@[simp] theorem within_be16 (p : Nat) : Within mem (be16 p) base size ↔ base ≤ p ∧ p + 2 ≤ base + size := by
  simp only [be16, within_bind, within_pure, and_true]
  exact within_range (by decide) (trace_beLoop p 2 0 0#32)

@[simp] theorem within_be32 (p : Nat) : Within mem (be32 p) base size ↔ base ≤ p ∧ p + 4 ≤ base + size :=
  within_range (by decide) (trace_beLoop p 4 0 0#32)

@[simp] theorem within_be48 (p : Nat) : Within mem (be48 p) base size ↔ base ≤ p ∧ p + 6 ≤ base + size :=
  within_range (by decide) (trace_beLoop p 6 0 0#64)

@[simp] theorem within_be64 (p : Nat) : Within mem (be64 p) base size ↔ base ≤ p ∧ p + 8 ≤ base + size :=
  within_range (by decide) (trace_beLoop p 8 0 0#64)

end

/-! ## What they return -/

theorem bigEndian_foldl (n : Nat) (bytes : List (BitVec 8)) :
    bytes.foldl (fun n b => n * 256 + b.toNat) n = n * 256 ^ bytes.length + bigEndian bytes := by
  induction bytes generalizing n with
  | nil => simp [bigEndian]
  | cons b bytes ih =>
    have rest := ih (0 * 256 + b.toNat)
    simp only [bigEndian, List.foldl_cons, List.length_cons] at rest ⊢
    rw [ih, rest, bigEndian, pow_succ]
    ring

theorem bigEndian_cons (b : BitVec 8) (bytes : List (BitVec 8)) :
    bigEndian (b :: bytes) = b.toNat * 256 ^ bytes.length + bigEndian bytes := by
  rw [bigEndian, List.foldl_cons, Nat.zero_mul, Nat.zero_add, bigEndian_foldl]

theorem bigEndian_append (bytes bytes' : List (BitVec 8)) :
    bigEndian (bytes ++ bytes') = bigEndian bytes * 256 ^ bytes'.length + bigEndian bytes' := by
  rw [bigEndian, List.foldl_append, bigEndian_foldl]
  rfl

theorem bigEndian_lt (bytes : List (BitVec 8)) : bigEndian bytes < 256 ^ bytes.length := by
  induction bytes using List.reverseRecOn with
  | nil => decide
  | append_singleton bytes b ih =>
    have byte := b.isLt
    have one : bigEndian [b] = b.toNat := by simp [bigEndian]
    rw [bigEndian_append, one, List.length_append, List.length_singleton, pow_one, pow_succ]
    omega

/-- The accumulator never overflows while the bytes fit its width. -/
theorem value_beLoop (mem : Memory) {w : Nat} (p : Nat) (left i : Nat) (res : BitVec w) (small : res.toNat < 256 ^ i)
    (fits : 8 * (i + left) ≤ w) : ((beLoop p left i res).value mem).toNat =
      res.toNat * 256 ^ left + bigEndian (bytesAt mem (p + i) left) := by
  induction left generalizing i res with
  | zero => simp [beLoop, bytesAt, bigEndian]
  | succ left ih =>
    have byte := (mem (p + i)).isLt
    have below : 256 ^ (i + 1) ≤ 2 ^ w := by
      calc 256 ^ (i + 1) = 2 ^ (8 * (i + 1)) := by rw [show 256 = 2 ^ 8 from rfl, ← pow_mul]
        _ ≤ 2 ^ w := Nat.pow_le_pow_right (by decide) (by omega)
    have step : (res <<< 8 ||| (mem (p + i)).setWidth w).toNat = res.toNat * 256 + (mem (p + i)).toNat := by
      have shifted : (res <<< 8).toNat = res.toNat <<< 8 := by
        rw [BitVec.toNat_shiftLeft, Nat.mod_eq_of_lt]
        rw [Nat.shiftLeft_eq]
        rw [pow_succ] at below
        omega
      have widened : ((mem (p + i)).setWidth w).toNat = (mem (p + i)).toNat := by
        rw [BitVec.toNat_setWidth, Nat.mod_eq_of_lt]
        have : 256 ≤ 2 ^ w := by
          calc 256 = 2 ^ 8 := rfl
            _ ≤ 2 ^ w := Nat.pow_le_pow_right (by decide) (by omega)
        omega
      rw [BitVec.toNat_or, shifted, widened, ← Nat.shiftLeft_add_eq_or_of_lt (by simpa using byte), Nat.shiftLeft_eq]
    simp only [beLoop, value_bind, value_read]
    rw [ih (i + 1) _ (by rw [step, pow_succ]; omega) (by omega), step, bytesAt_succ, bigEndian_cons, length_bytesAt,
      pow_succ, show p + (i + 1) = p + i + 1 by omega]
    ring

theorem value_be16 (mem : Memory) (p : Nat) : ((be16 p).value mem).toNat = bigEndian (bytesAt mem p 2) := by
  have loop := value_beLoop mem p 2 0 0#32 (by decide) (by decide)
  have small := bigEndian_lt (bytesAt mem p 2)
  rw [length_bytesAt] at small
  simp only [be16, value_bind, value_pure, BitVec.toNat_setWidth, loop, BitVec.toNat_ofNat, Nat.zero_mod, Nat.zero_mul,
    Nat.zero_add, Nat.add_zero]
  exact Nat.mod_eq_of_lt small

theorem value_be32 (mem : Memory) (p : Nat) : ((be32 p).value mem).toNat = bigEndian (bytesAt mem p 4) := by
  rw [be32, value_beLoop mem p 4 0 0#32 (by decide) (by decide), BitVec.toNat_ofNat, Nat.zero_mod, Nat.zero_mul,
    Nat.zero_add, Nat.add_zero]

theorem value_be64 (mem : Memory) (p : Nat) : ((be64 p).value mem).toNat = bigEndian (bytesAt mem p 8) := by
  rw [be64, value_beLoop mem p 8 0 0#64 (by decide) (by decide), BitVec.toNat_ofNat, Nat.zero_mod, Nat.zero_mul,
    Nat.zero_add, Nat.add_zero]

/-! ## Where they read -/

theorem value_beLoop_add (mem : Memory) {w : Nat} (p k left i : Nat) (res : BitVec w) :
    (beLoop (p + k) left i res).value mem = (beLoop k left i res).value (seenFrom p mem) := by
  induction left generalizing i res with
  | zero => rfl
  | succ left ih =>
    simp only [beLoop, value_bind, Nat.add_assoc, value_read_add]
    exact ih _ _

theorem value_be16_add (mem : Memory) (p k : Nat) : (be16 (p + k)).value mem = (be16 k).value (seenFrom p mem) := by
  simp only [be16, value_bind, value_pure, value_beLoop_add]

theorem value_be32_add (mem : Memory) (p k : Nat) : (be32 (p + k)).value mem = (be32 k).value (seenFrom p mem) :=
  value_beLoop_add mem p k 4 0 0

theorem value_be48_add (mem : Memory) (p k : Nat) : (be48 (p + k)).value mem = (be48 k).value (seenFrom p mem) :=
  value_beLoop_add mem p k 6 0 0

theorem value_be64_add (mem : Memory) (p k : Nat) : (be64 (p + k)).value mem = (be64 k).value (seenFrom p mem) :=
  value_beLoop_add mem p k 8 0 0

end Nts
