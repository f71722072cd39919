import Nts.Common.ByteReader

/-!
# `Framer` (`itch/framing.h`, `itch/framing.cc`)

The walk over a length-prefixed message stream. Definitions only.

A pointer is an address, a `size_t` a natural number: the sizes of buffers
that fit into memory, and every position in one, are far below 2^64. `forEach` is
the loop `while (framer.next(mv))` around a body, `forEachUntil` around one with a `break`; both have one
round of fuel for each byte and one to spare, and end before it runs out (`Blocks.lean`).
-/

namespace Nts.Itch
open Reading

/-- `MessageView`. -/
structure MessageView where
  data : Nat
  size : Nat
  deriving DecidableEq, Repr

structure Framer where
  data : Nat
  size : Nat
  pos : Nat := 0
  deriving DecidableEq, Repr

namespace Framer

/-- `next`. -/
def next (f : Framer) : Reading (Option MessageView × Framer) :=
  if f.size - f.pos < 2 then pure (none, f)
  else do
    let msgLen ← be16 (f.data + f.pos)
    if msgLen = 0#16 then pure (none, f)
    else if f.size - f.pos - 2 < msgLen.toNat then pure (none, f)
    else pure (some ⟨f.data + f.pos + 2, msgLen.toNat⟩, { f with pos := f.pos + (2 + msgLen.toNat) })

/-- `offset`. -/
def offset (f : Framer) : Nat := f.pos

/-- `exhausted`. -/
def exhausted (f : Framer) : Bool := f.pos == f.size

/-- `while (framer.next(mv))` around `body`, for at most `fuel` rounds. -/
def forEach {σ : Type} (body : σ → MessageView → Reading σ) : Nat → Framer → σ → Reading (σ × Framer)
  | 0, f, s => pure (s, f)
  | fuel + 1, f, s => do
    let (mv, f) ← f.next
    match mv with
    | none => pure (s, f)
    | some mv => do
      let s ← body s mv
      forEach body fuel f s

/-- The whole loop. -/
def walk {σ : Type} (body : σ → MessageView → Reading σ) (f : Framer) (s : σ) : Reading (σ × Framer) :=
  forEach body (f.size + 1) f s

/-- `while (framer.next(mv))` around a `body` that may leave the loop, for at most `fuel` rounds; the flag says that it did. -/
def forEachUntil {σ : Type} (body : σ → MessageView → Reading (σ × Bool)) :
    Nat → Framer → σ → Reading (σ × Framer × Bool)
  | 0, f, s => pure (s, f, false)
  | fuel + 1, f, s => do
    let (mv, f) ← f.next
    match mv with
    | none => pure (s, f, false)
    | some mv => do
      let (s, left) ← body s mv
      if left then pure (s, f, true) else forEachUntil body fuel f s

/-- The whole loop. -/
def walkUntil {σ : Type} (body : σ → MessageView → Reading (σ × Bool)) (f : Framer) (s : σ) :
    Reading (σ × Framer × Bool) :=
  forEachUntil body (f.size + 1) f s

/-- The views a walk hands out. -/
def handedOut (mem : Memory) (f : Framer) : List MessageView :=
  ((f.walk (fun mvs mv => pure (mvs ++ [mv])) []).value mem).1

end Framer
end Nts.Itch
