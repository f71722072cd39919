import Mathlib.Logic.Function.Basic
import Nts.Lib.Calls
import Nts.Lib.Codec
import Nts.Mold.Mold

/-!
# Sockets

What the system calls of the two ends do to the descriptors of the process. Any call may fail and leaves any `errno`, whether
it fails or not; one that fails changes no socket, but for `close`, whose descriptor is gone in any case. `inet_pton` is a
parameter: the address that is written in a string.
-/

namespace Nts
open Itch Mold

/-- `sockaddr_in`, in network order. -/
structure SockaddrIn where
  sinPort : Bytes 2
  sinAddr : Bytes 4
  deriving DecidableEq, Repr

def htons (v : BitVec 16) : Bytes 2 := ⟨putBe16 v, rfl⟩

def ntohs (bytes : Bytes 2) : BitVec 16 := .ofNat 16 (bigEndian bytes.1)

@[simp] theorem ntohs_htons (v : BitVec 16) : ntohs (htons v) = v := by
  rw [ntohs, htons, bigEndian_putBe16, BitVec.ofNat_toNat, BitVec.setWidth_eq]

/-- `INADDR_ANY`. -/
def inaddrAny : Bytes 4 := ⟨List.replicate 4 0#8, List.length_replicate⟩

inductive SockOpt where
  | reuseAddr (one : Int)
  | addMembership (multiaddr interface : Bytes 4)
  | multicastTtl (ttl : Byte)
  | multicastLoop (loop : Byte)
  | multicastIf (addr : Bytes 4)
  | sndbuf (size : Int)
  deriving DecidableEq, Repr

structure Socket where
  reuseAddr : Int
  bound : Option SockaddrIn
  memberships : List (Bytes 4 × Bytes 4)
  multicastTtl : Byte
  multicastLoop : Byte
  multicastIf : Bytes 4
  sndbuf : Int
  deriving DecidableEq, Repr

/-- As `socket` makes it; its options have what values the system gives them. -/
structure Socket.New (s : Socket) : Prop where
  bound : s.bound = none
  memberships : s.memberships = []

/-- The kernel doubles a send buffer, or cuts it down: to what it grants. -/
def Socket.set (s : Socket) (granted : Int) : SockOpt → Socket
  | .reuseAddr one => { s with reuseAddr := one }
  | .addMembership multiaddr interface => { s with memberships := s.memberships ++ [(multiaddr, interface)] }
  | .multicastTtl ttl => { s with multicastTtl := ttl }
  | .multicastLoop loop => { s with multicastLoop := loop }
  | .multicastIf addr => { s with multicastIf := addr }
  | .sndbuf _ => { s with sndbuf := granted }

/-! ## System calls -/

inductive SysCall where
  | socket
  | setsockopt (fd : Int) (option : SockOpt)
  | bind (fd : Int) (addr : SockaddrIn)
  | getsockname (fd : Int)
  /-- `getsockopt` of `SO_SNDBUF`, into a variable that has a value. -/
  | getSndbuf (fd : Int) (value : Int)
  | sendto (fd : Int) (packet : List Byte) (dest : SockaddrIn)
  | recvfrom (fd : Int)
  | close (fd : Int)
  /-- The variable. -/
  | errno
  deriving DecidableEq, Repr

namespace SysCall

/-- What is returned, and what is written through a pointer. -/
@[reducible] def Answer : SysCall → Type
  | .getsockname _ => Int × SockaddrIn
  | .getSndbuf _ _ => Int × Int
  | .recvfrom _ => Int × List Byte
  | _ => Int

def returned : (q : SysCall) → q.Answer → Int
  | .socket, r | .setsockopt _ _, r | .bind _ _, r | .sendto _ _ _, r | .close _, r | .errno, r => r
  | .getsockname _, a => a.1
  | .getSndbuf _ _, a => a.1
  | .recvfrom _, a => a.1

def descriptor : SysCall → Option Int
  | .socket | .errno => none
  | .setsockopt fd _ | .bind fd _ | .getsockname fd | .getSndbuf fd _ | .sendto fd _ _ | .recvfrom fd | .close fd => some fd

end SysCall

/-- A call that was made: what it returned, and the `errno` it left. -/
structure Entry where
  call : SysCall
  returned : Int
  errno : Int
  deriving DecidableEq, Repr

/-- The process, as far as its sockets go, and the calls it made so far. -/
structure Kernel where
  sockets : Int → Option Socket
  errno : Int
  log : List Entry

namespace Kernel
open Function

/-- What a call does. A descriptor that `socket` returns is not open; a bound port is never 0. -/
def Effect (k k' : Kernel) : (q : SysCall) → q.Answer → Prop
  | .socket, fd =>
    if fd < 0 then k'.sockets = k.sockets
    else k.sockets fd = none ∧ ∃ s : Socket, s.New ∧ k'.sockets = update k.sockets fd (some s)
  | .setsockopt fd option, r =>
    if r < 0 then k'.sockets = k.sockets
    else ∃ s granted, k.sockets fd = some s ∧ k'.sockets = update k.sockets fd (some (s.set granted option))
  | .bind fd addr, r =>
    if r < 0 then k'.sockets = k.sockets
    else ∃ s port, k.sockets fd = some s ∧ k'.sockets = update k.sockets fd (some { s with bound := some ⟨port, addr.sinAddr⟩ }) ∧
      ntohs port ≠ 0#16 ∧ (ntohs addr.sinPort ≠ 0#16 → port = addr.sinPort)
  | .getsockname fd, (r, got) =>
    k'.sockets = k.sockets ∧ (0 ≤ r → ∃ s, k.sockets fd = some s ∧ got = s.bound.getD ⟨htons 0#16, inaddrAny⟩)
  | .getSndbuf fd value, (r, value') =>
    k'.sockets = k.sockets ∧ if r < 0 then value' = value else ∃ s, k.sockets fd = some s ∧ value' = s.sndbuf
  -- a socket that is not bound is bound by the first datagram it sends
  | .sendto fd _ _, _ => ∃ s bound, k.sockets fd = some s ∧ k'.sockets = update k.sockets fd (some { s with bound })
  | .recvfrom _, _ => k'.sockets = k.sockets
  | .close fd, _ => k'.sockets = update k.sockets fd none
  | .errno, e => e = k.errno ∧ k' = k

/-- What a call adds to the log. -/
def entries (k' : Kernel) : (q : SysCall) → q.Answer → List Entry
  | .errno, _ => []
  | q, a => [⟨q, q.returned a, k'.errno⟩]

/-- A descriptor that is not open is not to be named. -/
def world : World SysCall SysCall.Answer Kernel where
  allows k q := ∀ fd, q.descriptor = some fd → (k.sockets fd).isSome = true
  answers k q a k' := k.Effect k' q a ∧ k'.log = k.log ++ k'.entries q a

theorem entries_of_descriptor {k' : Kernel} {q : SysCall} {fd : Int} (own : q.descriptor = some fd) (a : q.Answer) :
    k'.entries q a = [⟨q, q.returned a, k'.errno⟩] := by
  cases q with
  | errno => cases own
  | _ => rfl

/-- A descriptor that is open may be named. -/
theorem allows_of_open {k : Kernel} {q : SysCall} {fd : Int} (own : q.descriptor = some fd) (here : (k.sockets fd).isSome = true) :
    world.allows k q := by
  intro fd' named
  rw [own, Option.some.injEq] at named
  rwa [← named]

/-- What a call can do to the descriptors. -/
theorem effect_cases {k k' : Kernel} {q : SysCall} {a : q.Answer} (effect : k.Effect k' q a) : k'.sockets = k.sockets ∨
    (∃ fd s, k'.sockets = update k.sockets fd (some s)) ∨ ∃ fd, q = .close fd ∧ k'.sockets = update k.sockets fd none := by
  cases q with
  | socket =>
    change (if _ then _ else _) at effect
    split at effect
    · exact .inl effect
    · obtain ⟨_, s, _, sockets⟩ := effect
      exact .inr (.inl ⟨_, s, sockets⟩)
  | setsockopt fd option =>
    change (if _ then _ else _) at effect
    split at effect
    · exact .inl effect
    · obtain ⟨_, _, _, sockets⟩ := effect
      exact .inr (.inl ⟨fd, _, sockets⟩)
  | bind fd addr =>
    change (if _ then _ else _) at effect
    split at effect
    · exact .inl effect
    · obtain ⟨_, _, _, sockets, _⟩ := effect
      exact .inr (.inl ⟨fd, _, sockets⟩)
  | getsockname fd => exact .inl effect.1
  | getSndbuf fd value => exact .inl effect.1
  | sendto fd packet dest =>
    obtain ⟨_, _, _, sockets⟩ := effect
    exact .inr (.inl ⟨fd, _, sockets⟩)
  | recvfrom fd => exact .inl effect
  | close fd => exact .inr (.inr ⟨fd, rfl, effect⟩)
  | errno => exact .inl (by rw [effect.2])

/-- Only `close` takes a descriptor away, and only its own. -/
theorem still_open {k k' : Kernel} {q : SysCall} {a : q.Answer} {fd : Int} (effect : k.Effect k' q a)
    (here : (k.sockets fd).isSome = true) (kept : q ≠ .close fd) : (k'.sockets fd).isSome = true := by
  rcases effect_cases effect with same | ⟨fd', s, sockets⟩ | ⟨fd', rfl, sockets⟩
  · rwa [same]
  · rw [sockets, update_apply]
    split
    · rfl
    · exact here
  · rwa [sockets, update_of_ne fun same => kept (by rw [same])]

end Kernel

/-! ## Setups -/

open Calls Kernel

/-- What a constructor does; an exception is its text. -/
abbrev Setup (α : Type) := Calls SysCall SysCall.Answer String α

/-- The text of `errno`. -/
def raiseErrno {α : Type} (strerror : Int → String) (what : String) : Setup α := do
  let e : Int ← ask SysCall.errno
  .raise (what ++ ": " ++ strerror e)

/-- What a destructor does. -/
def closeOwned (fd : Int) : Setup Unit := do
  if 0 ≤ fd then
    let _ ← ask (SysCall.close fd)

/-- A call that is refused where it fails. -/
def checked (q : SysCall) (refuse : Setup q.Answer) : Setup q.Answer := do
  let a ← ask q
  if q.returned a < 0 then refuse else pure a

/-- A setup begun at `k₀` has come to `k`, with the socket `s`. -/
structure Opening (k₀ : Kernel) (fd : Int) (s : Socket) (k : Kernel) : Prop where
  legal : 0 ≤ fd
  fresh : k₀.sockets fd = none
  sockets : k.sockets = Function.update k₀.sockets fd (some s)
  log : ∃ calls last, k.log = k₀.log ++ (calls ++ [last]) ∧ (∀ c ∈ calls ++ [last], 0 ≤ c.returned) ∧ last.errno = k.errno

/-- The next call of a setup failed. -/
structure Failed (k₀ : Kernel) (fd : Int) (s : Socket) (q : SysCall) (k : Kernel) : Prop where
  fresh : k₀.sockets fd = none
  sockets : k.sockets = Function.update k₀.sockets fd (some s)
  log : ∃ calls r, k.log = k₀.log ++ calls ++ [⟨q, r, k.errno⟩] ∧ (∀ c ∈ calls, 0 ≤ c.returned) ∧ r < 0

section
variable {α : Type} {k₀ k : Kernel} {fd : Int} {s : Socket} {error : String → Kernel → Prop}

theorem Opening.is_open (opening : Opening k₀ fd s k) : (k.sockets fd).isSome = true := by
  rw [opening.sockets, Function.update_self, Option.isSome_some]

theorem Failed.is_open {q : SysCall} (failed : Failed k₀ fd s q k) : (k.sockets fd).isSome = true := by
  rw [failed.sockets, Function.update_self, Option.isSome_some]

/-- A socket more and then a socket less. -/
theorem closed_again {sockets : Int → Option Socket} (fresh : sockets fd = none) :
    Function.update (Function.update sockets fd (some s)) fd none = sockets := by
  rw [Function.update_idem, ← fresh, Function.update_eq_self]

theorem errno_ensures {f : Int → Setup α} {ok : α → Kernel → Prop} (next : (f k.errno).Ensures world ok error k) :
    (ask SysCall.errno >>= f).Ensures world ok error k := by
  rw [ensures_bind, ensures_ask]
  refine ⟨fun fd named => (by cases named), fun e k' answered => ?_⟩
  obtain ⟨⟨read, same⟩, _⟩ := answered
  rwa [read, same]

theorem close_ensures {f : Int → Setup α} {ok : α → Kernel → Prop} (here : (k.sockets fd).isSome = true)
    (next : ∀ r k', k'.sockets = Function.update k.sockets fd none → k'.log = k.log ++ [⟨.close fd, r, k'.errno⟩] →
      (f r).Ensures world ok error k') : (ask (SysCall.close fd) >>= f).Ensures world ok error k := by
  rw [ensures_bind, ensures_ask]
  exact ⟨allows_of_open rfl here, fun r k' answered => next r k' answered.1 answered.2⟩

/-- **The first call.** -/
theorem socket_ensures {f : Int → Setup α} {ok : α → Kernel → Prop} (failed : ∀ fd k, fd < 0 → k.sockets = k₀.sockets →
    k.log = k₀.log ++ [⟨.socket, fd, k.errno⟩] → (f fd).Ensures world ok error k)
    (opened : ∀ fd k s, s.New → Opening k₀ fd s k → (f fd).Ensures world ok error k) :
    (ask SysCall.socket >>= f).Ensures world ok error k₀ := by
  rw [ensures_bind, ensures_ask]
  refine ⟨fun fd named => (by cases named), fun fd k answered => ?_⟩
  obtain ⟨effect, logged⟩ := answered
  change (if fd < 0 then _ else _) at effect
  split at effect
  · next negative => exact failed fd k negative effect logged
  · next legal =>
    obtain ⟨fresh, s, new, sockets⟩ := effect
    refine opened fd k s new ⟨Int.not_lt.mp legal, fresh, sockets, [], ⟨.socket, fd, k.errno⟩, logged, fun c member => ?_, rfl⟩
    rw [List.nil_append, List.mem_singleton] at member
    rw [member]
    exact Int.not_lt.mp legal

/-- **The others.** One that fails changes nothing; what one that is taken does is `took`. -/
theorem checked_ensures {q : SysCall} {refuse : Setup q.Answer} {ok : q.Answer → Kernel → Prop} (opening : Opening k₀ fd s k)
    (own : q.descriptor = some fd) (same : ∀ k' a, k.Effect k' q a → q.returned a < 0 → k'.sockets = k.sockets)
    (took : ∀ k' a, k.Effect k' q a → 0 ≤ q.returned a → ∃ s', k'.sockets = Function.update k.sockets fd (some s') ∧
      (Opening k₀ fd s' k' → ok a k'))
    (refused : ∀ k', Failed k₀ fd s q k' → refuse.Ensures world ok error k') :
    (checked q refuse).Ensures world ok error k := by
  have here := opening.is_open
  obtain ⟨legal, fresh, sockets, calls, last, log, all, errno⟩ := opening
  rw [checked, ensures_bind, ensures_ask]
  refine ⟨allows_of_open own here, fun a k' answered => ?_⟩
  obtain ⟨effect, logged⟩ := answered
  rw [entries_of_descriptor own, log] at logged
  split
  · next negative =>
    exact refused k' ⟨fresh, (same k' a effect negative).trans sockets, calls ++ [last], q.returned a, logged, all, negative⟩
  · next positive =>
    rw [Int.not_lt] at positive
    obtain ⟨s', sockets', goes⟩ := took k' a effect positive
    refine goes ⟨legal, fresh, ?_, calls ++ [last], _, by rw [logged, List.append_assoc], fun c member => ?_, rfl⟩
    · rw [sockets', sockets, Function.update_idem]
    · rcases List.mem_append.mp member with before | now
      · exact all c before
      · rw [List.mem_singleton] at now
        rw [now]
        exact positive

/-- A call of `setsockopt`. -/
theorem setsockopt_ensures {option : SockOpt} {refuse : Setup Int} {ok : Int → Kernel → Prop} (opening : Opening k₀ fd s k)
    (took : ∀ r k' granted, Opening k₀ fd (s.set granted option) k' → ok r k')
    (refused : ∀ k', Failed k₀ fd s (.setsockopt fd option) k' → refuse.Ensures world ok error k') :
    (checked (.setsockopt fd option) refuse).Ensures world ok error k := by
  refine checked_ensures opening rfl (fun k' r effect negative => ?_) (fun k' r effect positive => ?_) refused
  · exact (if_pos negative).mp effect
  · obtain ⟨s', granted, here, sockets⟩ := (if_neg (Int.not_lt.mpr positive)).mp effect
    rw [opening.sockets, Function.update_self, Option.some.injEq] at here
    subst here
    exact ⟨_, sockets, took r k' granted⟩

/-! ## Owners -/

/-- What the process does while a descriptor is owned: any calls, but `close` of it. -/
def Meanwhile (fd : Int) : Kernel → Kernel → Prop :=
  Relation.ReflTransGen fun k k' => ∃ q a, q ≠ .close fd ∧ world.answers k q a k'

theorem Meanwhile.is_open {k' : Kernel} (meanwhile : Meanwhile fd k k') (here : (k.sockets fd).isSome = true) :
    (k'.sockets fd).isSome = true := by
  induction meanwhile with
  | refl => exact here
  | tail _ call ih =>
    obtain ⟨q, a, kept, answered⟩ := call
    exact still_open answered.1 ih kept

/-- A destructor takes its own descriptor away. -/
theorem closeOwned_ensures (legal : 0 ≤ fd) (here : (k.sockets fd).isSome = true) : (closeOwned fd).Ensures world
    (fun _ k' => k'.sockets = Function.update k.sockets fd none ∧ ∃ r, k'.log = k.log ++ [⟨.close fd, r, k'.errno⟩])
    (fun _ _ => False) k := by
  rw [closeOwned, if_pos legal]
  exact close_ensures here fun r k' closed logged => ⟨closed, r, logged⟩

end

/-- The life of an owner, in its runs: its constructor names no descriptor that is not open and ends as it should, and whatever
the process does in between, its destructor closes the one descriptor it owns and raises nothing. -/
structure Life {η : Type} (construct : Setup η) (fd : η → Int) (destroy : η → Setup Unit) (k₀ : Kernel) (opened : η → Kernel → Prop)
    (refused : String → Kernel → Prop) : Prop where
  asks : ∀ k q, Asks world k₀ construct k q → world.allows k q
  opened : ∀ h k, Ends world k₀ construct (.ok h) k → opened h k
  refused : ∀ text k, Ends world k₀ construct (.error text) k → refused text k
  closes : ∀ h k k', Ends world k₀ construct (.ok h) k → Meanwhile (fd h) k k' →
    (∀ k'' q, Asks world k' (destroy h) k'' q → world.allows k'' q) ∧
      ∀ r k'', Ends world k' (destroy h) r k'' → r = .ok () ∧ k''.sockets = Function.update k'.sockets (fd h) none

/-- **A life.** -/
theorem life {η : Type} {construct : Setup η} {fd : η → Int} {k₀ : Kernel} {opened : η → Kernel → Prop}
    {refused : String → Kernel → Prop} (ensures : construct.Ensures world opened refused k₀)
    (owned : ∀ h k, opened h k → 0 ≤ fd h ∧ (k.sockets (fd h)).isSome = true) :
    Life construct fd (fun h => closeOwned (fd h)) k₀ opened refused := by
  obtain ⟨asks, done, raised⟩ := ensures_iff.mp ensures
  refine ⟨asks, done, raised, fun h k k' ends meanwhile => ?_⟩
  obtain ⟨legal, here⟩ := owned h k (done h k ends)
  obtain ⟨asks', done', raised'⟩ := ensures_iff.mp (closeOwned_ensures legal (meanwhile.is_open here))
  refine ⟨asks', fun r k'' ends => ?_⟩
  cases r with
  | ok u => exact ⟨rfl, (done' u k'' ends).1⟩
  | error text => exact (raised' text k'' ends).elim

end Nts
