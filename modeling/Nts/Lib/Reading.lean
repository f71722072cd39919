import Mathlib

/-!
# Computations that read memory

A `Reading` asks for the bytes at some addresses, one after the other, and ends
with a result. Run on a memory it has a value and a trace of the addresses it
asked for; the value and the trace depend on the memory at those addresses only.
-/

/-- A computation that reads bytes. -/
inductive Reading (α : Type*) where
  | done (result : α)
  | byte (addr : Nat) (next : BitVec 8 → Reading α)

namespace Reading

variable {α β : Type*}

/-- The contents of memory. -/
abbrev Memory := Nat → BitVec 8

/-- One computation after another. -/
def bind : Reading α → (α → Reading β) → Reading β
  | .done a, f => f a
  | .byte addr next, f => .byte addr fun b => (next b).bind f

instance : Monad Reading where
  pure := .done
  bind := bind

/-- The byte at an address. -/
def read (addr : Nat) : Reading (BitVec 8) := .byte addr .done

/-- The result on a memory. -/
def value (mem : Memory) : Reading α → α
  | .done a => a
  | .byte addr next => (next (mem addr)).value mem

/-- The addresses read on a memory, in order. -/
def trace (mem : Memory) : Reading α → List Nat
  | .done _ => []
  | .byte addr next => addr :: (next (mem addr)).trace mem

section
variable {α β : Type} (mem : Memory)

@[simp] theorem value_pure (a : α) : (pure a : Reading α).value mem = a := rfl

@[simp] theorem trace_pure (a : α) : (pure a : Reading α).trace mem = [] := rfl

@[simp] theorem value_read (addr : Nat) : (read addr).value mem = mem addr := rfl

@[simp] theorem trace_read (addr : Nat) : (read addr).trace mem = [addr] := rfl

@[simp] theorem value_bind (r : Reading α) (f : α → Reading β) : (r >>= f).value mem = (f (r.value mem)).value mem := by
  induction r with
  | done a => rfl
  | byte addr next ih => exact ih (mem addr)

@[simp] theorem trace_bind (r : Reading α) (f : α → Reading β) :
    (r >>= f).trace mem = r.trace mem ++ (f (r.value mem)).trace mem := by
  induction r with
  | done a => rfl
  | byte addr next ih => exact congrArg (addr :: ·) (ih (mem addr))

/-- **Frame.** Memories that agree on what is read give the same result and the same reads. -/
theorem frame {mem mem' : Memory} {r : Reading α} (agree : ∀ a ∈ r.trace mem, mem' a = mem a) :
    r.value mem' = r.value mem ∧ r.trace mem' = r.trace mem := by
  induction r with
  | done a => exact ⟨rfl, rfl⟩
  | byte addr next ih =>
    have here : mem' addr = mem addr := agree addr List.mem_cons_self
    obtain ⟨value, trace⟩ := ih (mem addr) fun a later => agree a (List.mem_cons_of_mem _ later)
    simp only [Reading.value, Reading.trace, here, value, trace, and_self]

/-- Every read falls into the `size` bytes from `base` on. -/
def Within (mem : Memory) (r : Reading α) (base size : Nat) : Prop := ∀ a ∈ r.trace mem, base ≤ a ∧ a < base + size

variable {base size : Nat}

@[simp] theorem within_pure (a : α) : Within mem (pure a) base size := fun _ member => by cases member

@[simp] theorem within_read (addr : Nat) : Within mem (read addr) base size ↔ base ≤ addr ∧ addr < base + size := by
  simp [Within]

@[simp] theorem within_bind (r : Reading α) (f : α → Reading β) :
    Within mem (r >>= f) base size ↔ Within mem r base size ∧ Within mem (f (r.value mem)) base size := by
  simp only [Within, trace_bind, List.forall_mem_append]

variable {mem}

/-- Reading a range without gaps stays inside exactly when its ends do. -/
theorem within_range {r : Reading α} {addr n : Nat} (positive : 0 < n) (reads : r.trace mem = List.range' addr n) :
    Within mem r base size ↔ base ≤ addr ∧ addr + n ≤ base + size := by
  simp only [Within, reads, List.mem_range'_1]
  constructor
  · intro inside
    have first := inside addr (by omega)
    have last := inside (addr + n - 1) (by omega)
    omega
  · intro bounds a member
    omega

theorem Within.mono {r : Reading α} {base' size' : Nat} (inside : Within mem r base size) (low : base' ≤ base)
    (high : base + size ≤ base' + size') : Within mem r base' size' := by
  intro a member
  have := inside a member
  omega

/-- A computation that stays within a range depends on the range only. -/
theorem Within.frame {mem' : Memory} {r : Reading α} (inside : Within mem r base size)
    (agree : ∀ a, base ≤ a → a < base + size → mem' a = mem a) :
    r.value mem' = r.value mem ∧ r.trace mem' = r.trace mem :=
  Reading.frame fun a member => agree a (inside a member).1 (inside a member).2

end

/-! ## Bytes in memory -/

/-- The `n` bytes from `addr` on. -/
def bytesAt (mem : Memory) (addr n : Nat) : List (BitVec 8) := (List.range n).map fun i => mem (addr + i)

@[simp] theorem length_bytesAt (mem : Memory) (addr n : Nat) : (bytesAt mem addr n).length = n := by
  simp [bytesAt]

theorem bytesAt_succ (mem : Memory) (addr n : Nat) : bytesAt mem addr (n + 1) = mem addr :: bytesAt mem (addr + 1) n := by
  simp only [bytesAt, List.range_succ_eq_map, List.map_cons, List.map_map]
  congr 1
  apply List.map_congr_left
  intro i _
  simp only [Function.comp, Nat.succ_eq_add_one]
  congr 1
  omega

theorem bytesAt_add (mem : Memory) (addr n k : Nat) :
    bytesAt mem addr (n + k) = bytesAt mem addr n ++ bytesAt mem (addr + n) k := by
  induction n generalizing addr with
  | zero => simp [bytesAt]
  | succ n ih =>
    rw [show n + 1 + k = (n + k) + 1 by omega, bytesAt_succ, bytesAt_succ, ih, List.cons_append]
    congr 3
    omega

/-- A memory that holds some bytes from address 0 on. -/
def memoryOf (bytes : List (BitVec 8)) : Memory := fun i => bytes.getD i 0#8

theorem bytesAt_memoryOf {bytes : List (BitVec 8)} {n : Nat} (fits : n ≤ bytes.length) :
    bytesAt (memoryOf bytes) 0 n = bytes.take n := by
  refine List.ext_getElem (by rw [length_bytesAt, List.length_take, Nat.min_eq_left fits]) fun i low high => ?_
  rw [length_bytesAt] at low
  simp only [bytesAt, List.getElem_map, List.getElem_range, Nat.zero_add, memoryOf, List.getElem_take]
  exact List.getD_eq_getElem _ _ (by omega)

/-- Read `n` bytes from `addr` on. -/
def readBytes (addr : Nat) : Nat → Reading (List (BitVec 8))
  | 0 => pure []
  | n + 1 => do
    let b ← read addr
    let rest ← readBytes (addr + 1) n
    pure (b :: rest)

@[simp] theorem value_readBytes (mem : Memory) (addr n : Nat) : (readBytes addr n).value mem = bytesAt mem addr n := by
  induction n generalizing addr with
  | zero => rfl
  | succ n ih => simp [readBytes, ih, bytesAt_succ]

theorem trace_readBytes (mem : Memory) (addr n : Nat) : (readBytes addr n).trace mem = List.range' addr n := by
  induction n generalizing addr with
  | zero => rfl
  | succ n ih => simp [readBytes, ih, List.range'_succ]

/-! ## Moving a computation -/

section
variable {α : Type}

/-- The memory as it is seen from `p` on. -/
def seenFrom (p : Nat) (mem : Memory) : Memory := fun a => mem (p + a)

theorem value_read_add (mem : Memory) (p k : Nat) : (read (p + k)).value mem = (read k).value (seenFrom p mem) := rfl

theorem value_readBytes_add (mem : Memory) (p k n : Nat) :
    (readBytes (p + k) n).value mem = (readBytes k n).value (seenFrom p mem) := by
  simp only [value_readBytes, bytesAt, seenFrom, Nat.add_assoc]

/-- The computations of a family differ in the address they start from only. -/
def Movable (f : Nat → Reading α) : Prop := ∀ mem p, (f p).value mem = (f 0).value (seenFrom p mem)

/-- A movable computation has the same result wherever it finds the bytes it reads. -/
theorem Movable.value_eq {f : Nat → Reading α} (movable : Movable f) {mem mem' : Memory} {p p' n : Nat}
    (inside : Within (seenFrom p mem) (f 0) 0 n) (agree : ∀ i < n, mem' (p' + i) = mem (p + i)) :
    (f p').value mem' = (f p).value mem := by
  rw [movable mem' p', movable mem p]
  exact (inside.frame fun a _ less => agree a (by omega)).1

end

end Reading
