import Nts.Lib.Stores
import Nts.Mold.Decoder

/-!
# `RecvfromReceiver` (`receive/recvfrom_receiver.h`, `receive/recvfrom_receiver.cc`)

The loop around one blocking `recvfrom` for each datagram. What the kernel and the thread that
calls `stop` do is the input of a turn. The buffer is reused: what a shorter datagram leaves of a longer
one stays behind its view.

The sink is any function on packets. `heard` collects what it is called with; every other sink is
folded over the same packets.
-/

namespace Nts.Receive
open Reading Itch Mold

def kBufferSize : Nat := 2048

/-- `buffer_`. -/
abbrev Buffer := { bytes : List Byte // bytes.length = kBufferSize }

/-- What one turn of the loop meets: the stop flag set, or what `recvfrom` does. -/
inductive Turn where
  | stopped
  | datagram (bytes : List Byte) (rxTsc : BitVec 64)
  /-- -1 with `EINTR`. -/
  | interrupted
  /-- -1 with another `errno`. -/
  | failed
  deriving DecidableEq, Repr

structure RecvfromReceiver where
  packets : Nat := 0
  syscalls : Nat := 0
  truncated : Nat := 0
  buffer : Buffer := ⟨List.replicate kBufferSize 0#8, List.length_replicate⟩

/-- The kernel's side of `recvfrom`: as much of the datagram as fits. -/
def Buffer.fill (buffer : Buffer) (bytes : List Byte) : Buffer :=
  ⟨Store.apply buffer.val ⟨0, bytes.take kBufferSize⟩, by
    rw [Store.length_apply, buffer.property]
    rw [Store.Inside, Nat.zero_add, buffer.property]
    exact List.length_take_le _ _⟩

namespace RecvfromReceiver

section
variable {σ : Type} (sink : σ → Arrival → σ)

/-- One turn of the loop of `run`; the flag says that it is left. -/
def turn (s : RecvfromReceiver × σ) : Turn → (RecvfromReceiver × σ) × Bool
  | .stopped => (s, true)
  | .datagram bytes rxTsc =>
    let r := { s.1 with buffer := s.1.buffer.fill bytes, syscalls := s.1.syscalls + 1 }
    -- `MSG_TRUNC`: the length is the datagram's, also where it did not fit
    if bytes.length > kBufferSize then (({ r with truncated := r.truncated + 1 }, s.2), false)
    else
      let pkt : PacketView := ⟨0, bytes.length, rxTsc⟩
      (({ r with packets := r.packets + 1 }, sink s.2 ⟨memoryOf r.buffer.val, pkt⟩), false)
  | .interrupted => (({ s.1 with syscalls := s.1.syscalls + 1 }, s.2), false)
  | .failed => (({ s.1 with syscalls := s.1.syscalls + 1 }, s.2), true)

/-- `run`, over the turns it meets; the flag says that it has returned. -/
def run (s : RecvfromReceiver × σ) (turns : List Turn) : (RecvfromReceiver × σ) × Bool := Runs.afterUntil (turn sink) s turns

end

/-- The packets a run calls its sink with. -/
def heard (r : RecvfromReceiver) (turns : List Turn) : List Arrival :=
  (run (fun arrivals a => arrivals ++ [a]) (r, []) turns).1.2

end RecvfromReceiver

namespace Turn

/-- The turn ends the run. -/
def leaves : Turn → Bool
  | stopped | failed => true
  | datagram .. | interrupted => false

/-- The datagram of a turn. -/
def datagram? : Turn → Option (List Byte × BitVec 64)
  | datagram bytes rxTsc => some (bytes, rxTsc)
  | stopped | interrupted | failed => none

/-- The turns a run gets to serve. -/
def served (turns : List Turn) : List Turn := turns.takeWhile fun t => !t.leaves

/-- The turn that ends the run, when one does. -/
def leaving (turns : List Turn) : Option Turn := turns.find? leaves

/-- The datagrams that arrive while it runs. -/
def datagrams (turns : List Turn) : List (List Byte × BitVec 64) := (served turns).filterMap datagram?

end Turn

namespace RecvfromReceiver
open Turn

/-- The window of a datagram that fits shows the datagram, and nothing of what the buffer held before. -/
theorem bytes_fill (buffer : Buffer) {bytes : List Byte} (fits : bytes.length ≤ kBufferSize) :
    bytesAt (memoryOf (buffer.fill bytes).val) 0 bytes.length = bytes := by
  have whole : bytes.take kBufferSize = bytes := List.take_of_length_le fits
  have sized := buffer.property
  have inside : (⟨0, bytes⟩ : Store Byte).Inside buffer.val.length := by
    rw [Store.Inside, Nat.zero_add, sized]
    exact fits
  have shown := Store.slice_self inside
  rw [Store.slice, List.drop_zero] at shown
  rw [bytesAt_memoryOf (by rw [(buffer.fill bytes).property]; exact fits)]
  show (Store.apply buffer.val ⟨0, bytes.take kBufferSize⟩).take bytes.length = bytes
  rw [whole]
  exact shown

/-- What a run has made of the turns it met. -/
structure Received (r : RecvfromReceiver) (turns : List Turn) (arrivals : List Arrival) (r' : RecvfromReceiver) (left : Bool) : Prop where
  /-- The sink sees the datagrams that fit, each as it was sent. -/
  fits : arrivals.map (fun a => (a.bytes, a.pkt.rxTsc)) = (datagrams turns).filter fun g => g.1.length ≤ kBufferSize
  inside : ∀ a ∈ arrivals, a.pkt.data + a.pkt.len ≤ kBufferSize
  packets : r'.packets = r.packets + arrivals.length
  truncated : r'.truncated = r.truncated + ((datagrams turns).filter fun g => kBufferSize < g.1.length).length
  /-- Every call into the kernel is a datagram, an interruption, or the failure that ended the run. -/
  syscalls : r'.syscalls = r.syscalls + (datagrams turns).length + (served turns).count interrupted +
    (leaving turns).toList.count failed
  left : left = (leaving turns).isSome

/-- A turn that ends the run is its last. -/
theorem received_leaves {t : Turn} (leaves : t.leaves = true) (r : RecvfromReceiver) (turns : List Turn) :
    Received r (t :: turns) [] { r with syscalls := r.syscalls + [t].count failed } true := by
  have served : served (t :: turns) = [] := List.takeWhile_cons_of_neg (by rw [leaves]; decide)
  have leaving : leaving (t :: turns) = some t := List.find?_cons_of_pos leaves
  have nothing : datagrams (t :: turns) = [] := by rw [datagrams, served, List.filterMap_nil]
  refine ⟨?_, fun _ member => (List.not_mem_nil member).elim, rfl, ?_, ?_, ?_⟩
  · rw [nothing, List.filter_nil, List.map_nil]
  · rw [nothing, List.filter_nil, List.length_nil, Nat.add_zero]
  · rw [nothing, served, leaving]
    rfl
  · rw [leaving]
    rfl

/-- A turn that does not end the run comes in front of the others. -/
theorem received_serves {t : Turn} (stays : t.leaves = false) {r r' r'' : RecvfromReceiver} {turns : List Turn}
    {later : List Arrival} {left : Bool} (rest : Received r' turns later r'' left) (now : List Arrival)
    (fits : now.map (fun a => (a.bytes, a.pkt.rxTsc)) = t.datagram?.toList.filter fun g => g.1.length ≤ kBufferSize)
    (inside : ∀ a ∈ now, a.pkt.data + a.pkt.len ≤ kBufferSize) (packets : r'.packets = r.packets + now.length)
    (truncated : r'.truncated = r.truncated + (t.datagram?.toList.filter fun g => kBufferSize < g.1.length).length)
    (syscalls : r'.syscalls = r.syscalls + t.datagram?.toList.length + [t].count interrupted) :
    Received r (t :: turns) (now ++ later) r'' left := by
  have served : served (t :: turns) = t :: served turns := List.takeWhile_cons_of_pos (by rw [stays]; decide)
  have leaving : leaving (t :: turns) = leaving turns := List.find?_cons_of_neg (by rw [stays]; decide)
  have front : datagrams (t :: turns) = t.datagram?.toList ++ datagrams turns := by
    rw [datagrams, served]
    cases here : t.datagram? with
    | none => exact List.filterMap_cons_none here
    | some g => exact List.filterMap_cons_some here
  refine ⟨?_, ?_, ?_, ?_, ?_, ?_⟩
  · rw [List.map_append, fits, rest.fits, front, List.filter_append]
  · exact fun a member => (List.mem_append.mp member).elim (inside a) (rest.inside a)
  · rw [rest.packets, packets, List.length_append, Nat.add_assoc]
  · rw [rest.truncated, truncated, front, List.filter_append, List.length_append, Nat.add_assoc]
  · have counted : (t :: Turn.served turns).count interrupted = [t].count interrupted + (Turn.served turns).count interrupted := by
      rw [← List.count_append, List.singleton_append]
    rw [rest.syscalls, syscalls, front, served, leaving, List.length_append, counted]
    omega
  · rw [rest.left, leaving]

/-- A run folds its sink over what it receives, whatever the sink is. -/
theorem received_run (r : RecvfromReceiver) (turns : List Turn) : ∃ r' arrivals left, Received r turns arrivals r' left ∧
    ∀ {σ : Type} (sink : σ → Arrival → σ) (s : σ), run sink (r, s) turns = ((r', arrivals.foldl sink s), left) := by
  induction turns generalizing r with
  | nil => exact ⟨r, [], false, ⟨rfl, fun _ member => (List.not_mem_nil member).elim, rfl, rfl, rfl, rfl⟩, fun _ _ => rfl⟩
  | cons t turns ih =>
    cases t with
    | stopped => exact ⟨r, [], true, received_leaves rfl r turns, fun _ _ => rfl⟩
    | failed => exact ⟨{ r with syscalls := r.syscalls + 1 }, [], true, received_leaves rfl r turns, fun _ _ => rfl⟩
    | interrupted =>
      obtain ⟨r', arrivals, left, rest, same⟩ := ih { r with syscalls := r.syscalls + 1 }
      exact ⟨r', arrivals, left, received_serves rfl rest [] rfl (fun _ member => (List.not_mem_nil member).elim) rfl rfl rfl,
        fun sink s => same sink s⟩
    | datagram bytes rxTsc =>
      by_cases long : bytes.length > kBufferSize
      · obtain ⟨r', arrivals, left, rest, same⟩ := ih { r with
          buffer := r.buffer.fill bytes, syscalls := r.syscalls + 1, truncated := r.truncated + 1 }
        refine ⟨r', arrivals, left, received_serves rfl rest [] ?_ (fun _ member => (List.not_mem_nil member).elim) rfl ?_ rfl, ?_⟩
        · rw [datagram?, Option.toList_some, List.filter_singleton]
          simp only [Nat.not_le.mpr long, decide_false, cond_false, List.map_nil]
        · rw [datagram?, Option.toList_some, List.filter_singleton]
          simp only [gt_iff_lt.mp long, decide_true, cond_true, List.length_singleton]
        · intro σ sink s
          rw [run, Runs.afterUntil, turn, if_pos long]
          exact same sink s
      · have short : bytes.length ≤ kBufferSize := Nat.le_of_not_lt long
        obtain ⟨r', arrivals, left, rest, same⟩ := ih { r with
          buffer := r.buffer.fill bytes, syscalls := r.syscalls + 1, packets := r.packets + 1 }
        refine ⟨r', ⟨memoryOf (r.buffer.fill bytes).val, 0, bytes.length, rxTsc⟩ :: arrivals,
          left, received_serves rfl rest [_] ?_ ?_ rfl ?_ rfl, ?_⟩
        · rw [datagram?, Option.toList_some, List.filter_singleton, List.map_singleton, Arrival.bytes,
            bytes_fill r.buffer short]
          simp only [short, decide_true, cond_true]
        · intro a member
          rw [List.mem_singleton.mp member]
          exact (Nat.zero_add _).trans_le short
        · rw [datagram?, Option.toList_some, List.filter_singleton]
          simp only [Nat.not_lt.mpr short, decide_false, cond_false, List.length_nil, Nat.add_zero]
        · intro σ sink s
          rw [run, Runs.afterUntil, turn, if_neg long]
          exact same sink _

theorem run_sink (r : RecvfromReceiver) (turns : List Turn) {σ : Type} (sink : σ → Arrival → σ) (s : σ) :
    ∃ r' left, Received r turns (heard r turns) r' left ∧ run sink (r, s) turns = ((r', (heard r turns).foldl sink s), left) := by
  obtain ⟨r', arrivals, left, received, same⟩ := received_run r turns
  have collected : heard r turns = arrivals := by
    rw [heard, same, List.foldl_append_eq_append (f := fun a => [a]), ← List.flatMap_def, List.flatMap_singleton', List.nil_append]
  rw [collected]
  exact ⟨r', left, received, same sink s⟩

/-- **Every run**, with any sink. -/
theorem run_receives (r : RecvfromReceiver) (turns : List Turn) {σ : Type} (sink : σ → Arrival → σ) (s : σ) :
    Received r turns (heard r turns) (run sink (r, s) turns).1.1 (run sink (r, s) turns).2 ∧
      (run sink (r, s) turns).1.2 = (heard r turns).foldl sink s := by
  obtain ⟨r', left, received, same⟩ := run_sink r turns sink s
  rw [same]
  exact ⟨received, rfl⟩

end RecvfromReceiver
end Nts.Receive
