import Nts.Receive.Sockets

/-!
# `open_udp_socket` (`receive/socket_setup.h`, `receive/socket_setup.cc`)

As a program of system calls, and the two ends of `RecvfromReceiver`'s life, which owns its descriptor.
-/

namespace Nts.Receive
open Calls Kernel

/-! ## `open_udp_socket` -/

section
variable (strerror : Int → String) (inetPton : String → Option (Bytes 4))

/-- `fail`: `errno` is read before `close`. -/
def fail {α : Type} (fd : Int) (what : String) : Setup α := do
  let e : Int ← ask SysCall.errno
  let _ ← ask (SysCall.close fd)
  .raise (what ++ ": " ++ strerror e)

/-- The membership that the group is joined with: any interface where the host is not an address. -/
def joinGroup (fd : Int) (host group : String) : Setup Unit := do
  match inetPton group with
  | none => fail strerror fd "bad multicast group"
  | some multiaddr =>
    let _ ← checked (SysCall.setsockopt fd (.addMembership multiaddr ((inetPton host).getD inaddrAny))) (fail strerror fd "IP_ADD_MEMBERSHIP")

/-- The port that the kernel chose, where it is asked for. -/
def reportPort (fd : Int) (boundPort : Bool) : Setup (Option (BitVec 16)) := do
  if boundPort then
    let got ← checked (SysCall.getsockname fd) (fail strerror fd "getsockname")
    pure (some (ntohs got.2.sinPort))
  else pure none

/-- `open_udp_socket`; with `boundPort`, the port too. -/
def openUdpSocket (bindHost : String) (port : BitVec 16) (multicast : Bool) (multicastGroup : String) (boundPort : Bool) :
    Setup (Int × Option (BitVec 16)) := do
  let fd : Int ← ask SysCall.socket
  if fd < 0 then raiseErrno strerror "socket"
  else
    let _ ← checked (SysCall.setsockopt fd (.reuseAddr 1)) (fail strerror fd "SO_REUSEADDR")
    match if multicast then some inaddrAny else inetPton bindHost with
    | none => fail strerror fd "bad bind address"
    | some sinAddr =>
      let _ ← checked (SysCall.bind fd ⟨htons port, sinAddr⟩) (fail strerror fd "bind")
      if multicast then joinGroup strerror inetPton fd bindHost multicastGroup
      let bound ← reportPort strerror fd boundPort
      pure (fd, bound)

/-- The receiver owns what its constructor opens. -/
structure Handle where
  fd : Int
  port : BitVec 16
  deriving DecidableEq, Repr

/-- `RecvfromReceiver`. -/
def construct (bindHost : String) (port : BitVec 16) (multicast : Bool) (multicastGroup : String) : Setup Handle := do
  let opened ← openUdpSocket strerror inetPton bindHost port multicast multicastGroup true
  pure ⟨opened.1, opened.2.getD 0#16⟩

/-- `~RecvfromReceiver`. -/
def destroy (r : Handle) : Setup Unit := closeOwned r.fd

end

/-! ## What a setup leaves -/

/-- The words that a failed call is reported with. -/
def step : SysCall → Option String
  | .socket => some "socket"
  | .setsockopt _ (.reuseAddr _) => some "SO_REUSEADDR"
  | .setsockopt _ (.addMembership _ _) => some "IP_ADD_MEMBERSHIP"
  | .bind _ _ => some "bind"
  | .getsockname _ => some "getsockname"
  | _ => none

section
variable (strerror : Int → String) (inetPton : String → Option (Bytes 4)) (bindHost : String) (port : BitVec 16) (multicast : Bool)
  (multicastGroup : String) (k₀ : Kernel)

/-- The words for an address that is none. -/
inductive BadAddress : String → Prop where
  | bind (unicast : multicast = false) (unreadable : inetPton bindHost = none) : BadAddress "bad bind address"
  | group (asked : multicast = true) (unreadable : inetPton multicastGroup = none) : BadAddress "bad multicast group"

/-- What is open is what was. The text is about the last call made in front of `close`: it is the first that failed, named by
its step, or an address behind it is none; and the `errno` is the one it left, whatever `close` did to it. -/
structure Refused (text : String) (k : Kernel) : Prop where
  sockets : k.sockets = k₀.sockets
  log : ∃ calls last closing what, k.log = k₀.log ++ (calls ++ [last]) ++ closing ∧ (∀ c ∈ calls, 0 ≤ c.returned) ∧
    text = what ++ ": " ++ strerror last.errno ∧
    (last.returned < 0 ∧ step last.call = some what ∨ 0 ≤ last.returned ∧ BadAddress inetPton bindHost multicast multicastGroup what) ∧
    (last.call = .socket ∧ last.returned < 0 ∧ closing = [] ∨ ∃ fd r e, closing = [⟨.close fd, r, e⟩])

/-- One more descriptor is open, of a socket that is bound: to the host, and to any address with the group joined where it is
multicast. -/
structure Opened (fd : Int) (k : Kernel) (bound : BitVec 16) : Prop where
  legal : 0 ≤ fd
  fresh : k₀.sockets fd = none
  socket : ∃ s sinAddr sinPort, k.sockets = Function.update k₀.sockets fd (some s) ∧ s.reuseAddr = 1 ∧ s.bound = some ⟨sinPort, sinAddr⟩ ∧
    ntohs sinPort = bound ∧ bound ≠ 0#16 ∧ (port ≠ 0#16 → bound = port) ∧
    if multicast then
      sinAddr = inaddrAny ∧ ∃ multiaddr, inetPton multicastGroup = some multiaddr ∧
        s.memberships = [(multiaddr, (inetPton bindHost).getD inaddrAny)]
    else inetPton bindHost = some sinAddr ∧ s.memberships = []

variable {strerror inetPton bindHost port multicast multicastGroup k₀} {α : Type} {ok : α → Kernel → Prop} {k : Kernel} {fd : Int}
  {s : Socket} {what : String}

/-- `errno` is that of the last call, and `close` takes the socket away. -/
theorem fail_ensures (fresh : k₀.sockets fd = none) (sockets : k.sockets = Function.update k₀.sockets fd (some s)) {calls : List Entry}
    {last : Entry} (log : k.log = k₀.log ++ (calls ++ [last])) (all : ∀ c ∈ calls, 0 ≤ c.returned) (errno : last.errno = k.errno)
    (because : last.returned < 0 ∧ step last.call = some what ∨
      0 ≤ last.returned ∧ BadAddress inetPton bindHost multicast multicastGroup what) :
    (fail strerror fd what).Ensures world ok (Refused strerror inetPton bindHost multicast multicastGroup k₀) k := by
  have here : (k.sockets fd).isSome = true := by rw [sockets, Function.update_self, Option.isSome_some]
  refine errno_ensures (close_ensures here fun r k' closed logged => ?_)
  refine ⟨?_, calls, last, [⟨.close fd, r, k'.errno⟩], what, ?_, all, by rw [errno], because, .inr ⟨fd, r, k'.errno, rfl⟩⟩
  · rw [closed, sockets, closed_again fresh]
  · rw [logged, log]

theorem fail_failed {q : SysCall} (failed : Failed k₀ fd s q k) (named : step q = some what) :
    (fail strerror fd what).Ensures world ok (Refused strerror inetPton bindHost multicast multicastGroup k₀) k := by
  obtain ⟨fresh, sockets, calls, r, log, all, negative⟩ := failed
  exact fail_ensures fresh sockets (log.trans (List.append_assoc _ _ _)) all rfl (.inl ⟨negative, named⟩)

theorem fail_address (opening : Opening k₀ fd s k) (bad : BadAddress inetPton bindHost multicast multicastGroup what) :
    (fail strerror fd what).Ensures world ok (Refused strerror inetPton bindHost multicast multicastGroup k₀) k := by
  obtain ⟨_, fresh, sockets, calls, last, log, all, errno⟩ := opening
  refine fail_ensures fresh sockets log (fun c member => all c (List.mem_append_left _ member)) errno (.inr ⟨?_, bad⟩)
  exact all last (List.mem_append_right _ (List.mem_singleton_self last))

/-- The group is joined. -/
theorem joinGroup_ensures {ok : Unit → Kernel → Prop} (opening : Opening k₀ fd s k) (several : multicast = true)
    (joined : ∀ k' multiaddr, inetPton multicastGroup = some multiaddr → Opening k₀ fd
      { s with memberships := s.memberships ++ [(multiaddr, (inetPton bindHost).getD inaddrAny)] } k' → ok () k') :
    (joinGroup strerror inetPton fd bindHost multicastGroup).Ensures world ok
      (Refused strerror inetPton bindHost multicast multicastGroup k₀) k := by
  rw [joinGroup]
  cases group : inetPton multicastGroup with
  | none => exact fail_address opening (.group several group)
  | some multiaddr =>
    rw [ensures_bind]
    exact setsockopt_ensures opening (fun r k' granted opening => joined k' multiaddr group opening) fun k' failed => fail_failed failed rfl

/-- A socket that may be bound is bound. -/
theorem bind_ensures {addr : SockaddrIn} {refuse : Setup Int} {ok : Int → Kernel → Prop} {error : String → Kernel → Prop}
    (opening : Opening k₀ fd s k)
    (took : ∀ r k' sinPort, ntohs sinPort ≠ 0#16 → (ntohs addr.sinPort ≠ 0#16 → sinPort = addr.sinPort) →
      Opening k₀ fd { s with bound := some ⟨sinPort, addr.sinAddr⟩ } k' → ok r k')
    (refused : ∀ k', Failed k₀ fd s (.bind fd addr) k' → refuse.Ensures world ok error k') :
    (checked (.bind fd addr) refuse).Ensures world ok error k := by
  refine checked_ensures opening rfl (fun k' r effect negative => ?_) (fun k' r effect positive => ?_) refused
  · exact (if_pos negative).mp effect
  · obtain ⟨s', sinPort, here, sockets, assigned, asked⟩ := (if_neg (Int.not_lt.mpr positive)).mp effect
    rw [opening.sockets, Function.update_self, Option.some.injEq] at here
    subst here
    exact ⟨_, sockets, took r k' sinPort assigned asked⟩

theorem getsockname_ensures {refuse : Setup (Int × SockaddrIn)} {ok : Int × SockaddrIn → Kernel → Prop}
    {error : String → Kernel → Prop} {addr : SockaddrIn} (bound : s.bound = some addr) (opening : Opening k₀ fd s k)
    (took : ∀ r k', Opening k₀ fd s k' → ok (r, addr) k')
    (refused : ∀ k', Failed k₀ fd s (.getsockname fd) k' → refuse.Ensures world ok error k') :
    (checked (.getsockname fd) refuse).Ensures world ok error k := by
  refine checked_ensures opening rfl (fun k' a effect _ => effect.1) (fun k' a effect positive => ?_) refused
  obtain ⟨r, got⟩ := a
  obtain ⟨s', here, rfl⟩ := effect.2 positive
  rw [opening.sockets, Function.update_self, Option.some.injEq] at here
  subst here
  refine ⟨s, ?_, fun opening => ?_⟩
  · rw [effect.1, opening.sockets, Function.update_idem]
  · rw [bound]
    exact took r k' opening

theorem reportPort_ensures {boundPort : Bool} {addr : SockaddrIn} {ok : Option (BitVec 16) → Kernel → Prop} (opening : Opening k₀ fd s k)
    (bound : s.bound = some addr)
    (reported : ∀ k, Opening k₀ fd s k → ok (if boundPort then some (ntohs addr.sinPort) else none) k) :
    (reportPort strerror fd boundPort).Ensures world ok (Refused strerror inetPton bindHost multicast multicastGroup k₀) k := by
  cases boundPort with
  | false => exact reported k opening
  | true =>
    rw [reportPort, if_pos rfl, ensures_bind]
    exact getsockname_ensures bound opening (fun r k => reported k) fun k failed => fail_failed failed rfl

/-- **The setup.** -/
theorem openUdpSocket_ensures (boundPort : Bool) : (openUdpSocket strerror inetPton bindHost port multicast multicastGroup boundPort).Ensures
    world (fun r k => ∃ bound, Opened inetPton bindHost port multicast multicastGroup k₀ r.1 k bound ∧
      r.2 = if boundPort then some bound else none) (Refused strerror inetPton bindHost multicast multicastGroup k₀) k₀ := by
  refine socket_ensures (fun fd k negative same log => ?_) fun fd k s new opening => ?_
  · rw [if_pos negative]
    refine errno_ensures ⟨same, [], ⟨.socket, fd, k.errno⟩, [], "socket", ?_, fun c member => (by cases member), rfl,
      .inl ⟨negative, rfl⟩, .inl ⟨rfl, negative, rfl⟩⟩
    rw [log, List.append_nil]
    rfl
  · rw [if_neg (Int.not_lt.mpr opening.legal), ensures_bind]
    refine setsockopt_ensures opening (fun r k granted opening => ?_) fun k failed => fail_failed failed rfl
    split
    · next unreadable =>
      cases multicast with
      | true => cases unreadable
      | false => exact fail_address opening (.bind rfl unreadable)
    · next sinAddr named =>
      rw [ensures_bind]
      refine bind_ensures opening (fun r k sinPort notZero asked opening => ?_) fun k failed => fail_failed failed rfl
      dsimp only at asked opening
      rw [ntohs_htons] at asked
      have bound : port ≠ 0#16 → ntohs sinPort = port := fun given => by rw [asked given, ntohs_htons]
      cases multicast with
      | false =>
        change (reportPort strerror fd boundPort >>= _).Ensures world _ _ k
        rw [ensures_bind]
        refine reportPort_ensures opening rfl fun k opening => ⟨_, ⟨opening.legal, opening.fresh, ?_⟩, rfl⟩
        exact ⟨_, sinAddr, sinPort, opening.sockets, rfl, rfl, rfl, notZero, bound, named, new.memberships⟩
      | true =>
        cases named
        rw [if_pos rfl, ensures_bind]
        refine joinGroup_ensures opening rfl fun k multiaddr group opening => ?_
        rw [ensures_bind]
        refine reportPort_ensures opening rfl fun k opening => ⟨_, ⟨opening.legal, opening.fresh, ?_⟩, rfl⟩
        refine ⟨_, inaddrAny, sinPort, opening.sockets, rfl, rfl, rfl, notZero, bound, rfl, multiaddr, group, ?_⟩
        change s.memberships ++ _ = _
        rw [new.memberships, List.nil_append]

end

/-- **The receiver's socket.** -/
theorem receiver_socket (strerror : Int → String) (inetPton : String → Option (Bytes 4)) (bindHost : String) (port : BitVec 16)
    (multicast : Bool) (multicastGroup : String) (k₀ : Kernel) :
    Life (construct strerror inetPton bindHost port multicast multicastGroup) Handle.fd destroy k₀
      (fun r k => Opened inetPton bindHost port multicast multicastGroup k₀ r.fd k r.port)
      (Refused strerror inetPton bindHost multicast multicastGroup k₀) := by
  have ensures : (construct strerror inetPton bindHost port multicast multicastGroup).Ensures world
      (fun r k => Opened inetPton bindHost port multicast multicastGroup k₀ r.fd k r.port)
      (Refused strerror inetPton bindHost multicast multicastGroup k₀) k₀ := by
    rw [construct, ensures_bind]
    refine (openUdpSocket_ensures true).mono (fun r k opened => ?_) fun _ _ => id
    obtain ⟨bound, opened, reported⟩ := opened
    obtain ⟨fd, port'⟩ := r
    cases reported
    exact opened
  refine life ensures fun r k opened => ⟨opened.legal, ?_⟩
  obtain ⟨_, _, _, sockets, _⟩ := opened.socket
  rw [sockets, Function.update_self, Option.isSome_some]

end Nts.Receive
