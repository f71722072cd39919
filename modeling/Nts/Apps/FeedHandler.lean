import Nts.Book.Replay

/-!
# The feed handler (`apps/feed_handler/main.cc`)

The offline driver: its own loop over a file's messages, with an audit beside the books
and a check of the touched book behind every message. Definitions only, in the source's order.

The build is one with `NDEBUG`. What only feeds the printed summary (the counts by type,
the top of book) is left out.
-/

namespace Nts.Apps
open Reading Itch Book

/-- `Audit`. -/
structure Audit where
  applied : Nat := 0
  unknownRef : Nat := 0
  duplicateRef : Nat := 0
  clampedReduce : Nat := 0
  sharesAdded : BitVec 64 := 0
  sharesExecuted : BitVec 64 := 0
  sharesCancelled : BitVec 64 := 0
  sharesDeleted : BitVec 64 := 0
  deriving DecidableEq, Repr

namespace Audit

/-- `tally`. -/
def tally (a : Audit) : ApplyResult → Audit
  | .applied => { a with applied := a.applied + 1 }
  | .unknownRef => { a with unknownRef := a.unknownRef + 1 }
  | .duplicateRef => { a with duplicateRef := a.duplicateRef + 1 }
  | .clampedReduce => { a with clampedReduce := a.clampedReduce + 1 }

/-- `expected_resting`. -/
def expectedResting (a : Audit) : BitVec 64 := a.sharesAdded - a.sharesExecuted - a.sharesCancelled - a.sharesDeleted

end Audit

/-- The variables of `main`. -/
structure FeedHandler where
  books : BookSet := {}
  audit : Audit := {}
  messages : Nat := 0
  unknownType : Nat := 0
  lengthMismatch : Nat := 0
  unknownLocate : Nat := 0
  invariantsOk : Bool := true

namespace FeedHandler

/-- The `switch` of the loop; the subtractions of quantities are in 32 bits. -/
def orderMessage (f : FeedHandler) (type : MessageType) (locate : BitVec 16) (p : Nat) : Reading FeedHandler :=
  match type with
  | .addOrder | .addOrderMpid => do
    let m ← decodeAddOrder p
    if !f.books.known locate then pure { f with unknownLocate := f.unknownLocate + 1 }
    else
      let (b, r) := (f.books.book locate).add m.orderRef (toSide m.side) m.shares m.price
      let audit := f.audit.tally r
      let audit :=
        if r = .applied then { audit with sharesAdded := audit.sharesAdded + m.shares.setWidth 64 } else audit
      pure { f with books := f.books.setBook locate b, audit }
  | .orderExecuted | .orderExecutedWithPrice => do
    let m ← decodeOrderExecuted p
    if !f.books.known locate then pure { f with unknownLocate := f.unknownLocate + 1 }
    else
      let before := (f.books.book locate).sharesOf m.orderRef
      let (b, r) := (f.books.book locate).reduce m.orderRef m.executedShares
      let audit := f.audit.tally r
      let audit :=
        { audit with sharesExecuted := audit.sharesExecuted + (before - b.sharesOf m.orderRef).setWidth 64 }
      pure { f with books := f.books.setBook locate b, audit }
  | .orderCancel => do
    let m ← decodeOrderCancel p
    if !f.books.known locate then pure { f with unknownLocate := f.unknownLocate + 1 }
    else
      let before := (f.books.book locate).sharesOf m.orderRef
      let (b, r) := (f.books.book locate).reduce m.orderRef m.cancelledShares
      let audit := f.audit.tally r
      let audit :=
        { audit with sharesCancelled := audit.sharesCancelled + (before - b.sharesOf m.orderRef).setWidth 64 }
      pure { f with books := f.books.setBook locate b, audit }
  | .orderDelete => do
    let m ← decodeOrderDelete p
    if !f.books.known locate then pure { f with unknownLocate := f.unknownLocate + 1 }
    else
      let audit := { f.audit with sharesDeleted :=
        f.audit.sharesDeleted + ((f.books.book locate).sharesOf m.orderRef).setWidth 64 }
      let (b, r) := (f.books.book locate).remove m.orderRef
      pure { f with books := f.books.setBook locate b, audit := audit.tally r }
  | .orderReplace => do
    let m ← decodeOrderReplace p
    if !f.books.known locate then pure { f with unknownLocate := f.unknownLocate + 1 }
    else
      let killed := (f.books.book locate).sharesOf m.originalOrderRef
      let (b, r) := (f.books.book locate).replace m.originalOrderRef m.newOrderRef m.shares m.price
      let audit := f.audit.tally r
      let audit :=
        if r = .applied then
          { audit with
            sharesDeleted := audit.sharesDeleted + killed.setWidth 64
            sharesAdded := audit.sharesAdded + m.shares.setWidth 64 }
        else audit
      pure { f with books := f.books.setBook locate b, audit }
  | _ => pure f

/-- The check behind a message, of the book it touched only; the flag is the `break` of the loop. -/
def checkTouched (f : FeedHandler) (locate : BitVec 16) : FeedHandler × Bool :=
  if f.books.known locate && !(f.books.book locate).checkInvariantsFast then ({ f with invariantsOk := false }, true)
  else (f, false)

/-- One round of the loop. -/
def onMessage (f : FeedHandler) (mv : MessageView) : Reading (FeedHandler × Bool) := do
  let f := { f with messages := f.messages + 1 }
  let byte ← read mv.data
  match MessageType.ofByte byte with
  | none => pure ({ f with unknownType := f.unknownType + 1 }, false)
  | some type => do
    let f := if type.expectedLength ≠ mv.size then { f with lengthMismatch := f.lengthMismatch + 1 } else f
    if type = .stockDirectory then do
      let m ← decodeStockDirectory mv.data
      pure ({ f with books := f.books.onStockDirectory m }, false)
    else do
      let h ← decodeHeader mv.data
      let f ← f.orderMessage type h.stockLocate mv.data
      pure (f.checkTouched h.stockLocate)

/-- The loop over a file and the check behind it; the flag says that the loop ended by its `break`. -/
def run (data size : Nat) : Reading (FeedHandler × Framer × Bool) := do
  let (f, framer, left) ← Framer.walkUntil onMessage ⟨data, size, 0⟩ {}
  pure (if !f.books.checkInvariants then { f with invariantsOk := false } else f, framer, left)

end FeedHandler
end Nts.Apps
