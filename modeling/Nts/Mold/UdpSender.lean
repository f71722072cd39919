import Nts.Receive.Sockets

/-!
# `UdpSender` (`mold/udp_sender.h`, `mold/udp_sender.cc`)

Its constructor as a program of system calls, and its destructor. Where the constructor of the receiver reads `errno` before it
closes, this one reads it behind `close`.
-/

namespace Nts.Mold.UdpSender
open Calls Kernel

/-- What the constructor sets; the counters are 0. -/
structure Handle where
  fd : Int
  dest : SockaddrIn
  effectiveSndbuf : Int
  deriving DecidableEq, Repr

section
variable (strerror : Int → String) (inetPton : String → Option (Bytes 4))

/-- `close`, and then `fail`. -/
def closeFail {α : Type} (fd : Int) (what : String) : Setup α := do
  let _ ← ask (SysCall.close fd)
  raiseErrno strerror what

def badAddress {α : Type} (fd : Int) (text : String) : Setup α := do
  let _ ← ask (SysCall.close fd)
  .raise text

/-- The options of multicast, up to the first that is refused. -/
def setMulticast (fd : Int) (interface : String) : Setup Unit := do
  match inetPton interface with
  | none => badAddress fd ("bad interface address: " ++ interface)
  | some ifaddr =>
    let _ ← checked (SysCall.setsockopt fd (.multicastTtl 1#8)) (closeFail strerror fd "setsockopt multicast")
    let _ ← checked (SysCall.setsockopt fd (.multicastLoop 1#8)) (closeFail strerror fd "setsockopt multicast")
    let _ ← checked (SysCall.setsockopt fd (.multicastIf ifaddr)) (closeFail strerror fd "setsockopt multicast")

/-- The send buffer: what is asked for, and what is granted. -/
def setSndbuf (fd : Int) (sendBuffer : Int) : Setup Int := do
  if 0 < sendBuffer then
    let _ ← checked (SysCall.setsockopt fd (.sndbuf sendBuffer)) (closeFail strerror fd "setsockopt SO_SNDBUF")
  let granted ← ask (SysCall.getSndbuf fd 0)
  pure granted.2

/-- `UdpSender`. -/
def construct (host : String) (port : BitVec 16) (multicast : Bool) (interface : String) (sendBuffer : Int) : Setup Handle := do
  let fd : Int ← ask SysCall.socket
  if fd < 0 then raiseErrno strerror "socket"
  else match inetPton host with
    | none => badAddress fd ("bad IPv4 address: " ++ host)
    | some sinAddr =>
      if multicast then setMulticast strerror inetPton fd interface
      let effectiveSndbuf ← setSndbuf strerror fd sendBuffer
      pure ⟨fd, ⟨htons port, sinAddr⟩, effectiveSndbuf⟩

/-- `~UdpSender`. -/
def destroy (s : Handle) : Setup Unit := closeOwned s.fd

end

/-! ## What the constructor leaves -/

/-- The words that a failed call is reported with. -/
def step : SysCall → Option String
  | .setsockopt _ (.multicastTtl _) | .setsockopt _ (.multicastLoop _) | .setsockopt _ (.multicastIf _) => some "setsockopt multicast"
  | .setsockopt _ (.sndbuf _) => some "setsockopt SO_SNDBUF"
  | _ => none

section
variable (strerror : Int → String) (inetPton : String → Option (Bytes 4)) (host : String) (port : BitVec 16) (multicast : Bool)
  (interface : String) (k₀ : Kernel)

/-- What an exception says of the calls made: an address that is none, or the step of the first call that failed with the `errno`
that `close` left behind it. -/
inductive Because : List Entry → String → Prop where
  | socket {r e : Int} (failed : r < 0) : Because [⟨.socket, r, e⟩] ("socket: " ++ strerror e)
  | host {calls : List Entry} {fd r e : Int} (taken : ∀ c ∈ calls, 0 ≤ c.returned) (unreadable : inetPton host = none) :
    Because (calls ++ [⟨.close fd, r, e⟩]) ("bad IPv4 address: " ++ host)
  | interface {calls : List Entry} {fd r e : Int} (taken : ∀ c ∈ calls, 0 ≤ c.returned) (asked : multicast = true)
    (unreadable : inetPton interface = none) : Because (calls ++ [⟨.close fd, r, e⟩]) ("bad interface address: " ++ interface)
  | call {calls : List Entry} {q : SysCall} {what : String} {fd r e r' e' : Int} (taken : ∀ c ∈ calls, 0 ≤ c.returned)
    (failed : r < 0) (named : step q = some what) :
    Because (calls ++ [⟨q, r, e⟩] ++ [⟨.close fd, r', e'⟩]) (what ++ ": " ++ strerror e')

/-- What is open is what was. -/
structure Refused (text : String) (k : Kernel) : Prop where
  sockets : k.sockets = k₀.sockets
  log : ∃ calls, k.log = k₀.log ++ calls ∧ Because strerror inetPton host multicast interface calls text

/-- One more descriptor is open, of a socket that is not bound, and one hop and a loop back for multicast. The buffer is the granted
one, or 0 where the kernel does not tell. -/
structure Opened (s : Handle) (k : Kernel) : Prop where
  legal : 0 ≤ s.fd
  fresh : k₀.sockets s.fd = none
  dest : inetPton host = some s.dest.sinAddr ∧ s.dest.sinPort = htons port
  socket : ∃ s', k.sockets = Function.update k₀.sockets s.fd (some s') ∧ s'.New ∧
    (multicast = true → s'.multicastTtl = 1#8 ∧ s'.multicastLoop = 1#8 ∧ inetPton interface = some s'.multicastIf) ∧
      ∃ calls r, k.log = k₀.log ++ calls ++ [⟨.getSndbuf s.fd 0, r, k.errno⟩] ∧ (∀ c ∈ calls, 0 ≤ c.returned) ∧
        s.effectiveSndbuf = if r < 0 then 0 else s'.sndbuf

variable {strerror inetPton host port multicast interface k₀} {α : Type} {ok : α → Kernel → Prop} {k : Kernel} {fd : Int} {s : Socket}
  {what : String}

theorem closeFail_failed {q : SysCall} (failed : Failed k₀ fd s q k) (named : step q = some what) :
    (closeFail strerror fd what).Ensures world ok (Refused strerror inetPton host multicast interface k₀) k := by
  have here := failed.is_open
  obtain ⟨fresh, sockets, calls, r, log, all, negative⟩ := failed
  refine close_ensures here fun r' k' closed logged => errno_ensures ?_
  refine ⟨?_, calls ++ [⟨q, r, k.errno⟩] ++ [⟨.close fd, r', k'.errno⟩], ?_, .call all negative named⟩
  · rw [closed, sockets, closed_again fresh]
  · rw [logged, log]
    simp only [List.append_assoc]

theorem badAddress_ensures {text : String} (opening : Opening k₀ fd s k)
    (because : ∀ {calls : List Entry} {r e : Int}, (∀ c ∈ calls, 0 ≤ c.returned) →
      Because strerror inetPton host multicast interface (calls ++ [⟨.close fd, r, e⟩]) text) :
    (badAddress fd text).Ensures world ok (Refused strerror inetPton host multicast interface k₀) k := by
  have here := opening.is_open
  obtain ⟨_, fresh, sockets, calls, last, log, all, _⟩ := opening
  refine close_ensures here fun r k' closed logged => ⟨?_, calls ++ [last] ++ [⟨.close fd, r, k'.errno⟩], ?_, because all⟩
  · rw [closed, sockets, closed_again fresh]
  · rw [logged, log, List.append_assoc]

theorem setMulticast_ensures {ok : Unit → Kernel → Prop} (opening : Opening k₀ fd s k) (asked : multicast = true)
    (set : ∀ k ifaddr, inetPton interface = some ifaddr →
      Opening k₀ fd { s with multicastTtl := 1#8, multicastLoop := 1#8, multicastIf := ifaddr } k → ok () k) :
    (setMulticast strerror inetPton fd interface).Ensures world ok (Refused strerror inetPton host multicast interface k₀) k := by
  rw [setMulticast]
  cases named : inetPton interface with
  | none => exact badAddress_ensures opening fun all => .interface all asked named
  | some ifaddr =>
    rw [ensures_bind]
    refine setsockopt_ensures opening (fun r k granted opening => ?_) fun k failed => closeFail_failed failed rfl
    rw [ensures_bind]
    refine setsockopt_ensures opening (fun r k granted opening => ?_) fun k failed => closeFail_failed failed rfl
    rw [ensures_bind]
    exact setsockopt_ensures opening (fun r k granted opening => set k ifaddr named opening) fun k failed => closeFail_failed failed rfl

theorem setSndbuf_ensures {sendBuffer : Int} {ok : Int → Kernel → Prop} (opening : Opening k₀ fd s k)
    (set : ∀ k sndbuf calls r, k.sockets = Function.update k₀.sockets fd (some { s with sndbuf }) →
      k.log = k₀.log ++ calls ++ [⟨.getSndbuf fd 0, r, k.errno⟩] → (∀ c ∈ calls, 0 ≤ c.returned) →
        ok (if r < 0 then 0 else sndbuf) k) :
    (setSndbuf strerror fd sendBuffer).Ensures world ok (Refused strerror inetPton host multicast interface k₀) k := by
  have read : ∀ k sndbuf, Opening k₀ fd { s with sndbuf } k →
      (do let granted ← ask (SysCall.getSndbuf fd 0); pure granted.2 : Setup Int).Ensures world ok
        (Refused strerror inetPton host multicast interface k₀) k := by
    intro k sndbuf opening
    rw [ensures_bind, ensures_ask]
    have here := opening.is_open
    obtain ⟨_, _, sockets, calls, last, log, all, _⟩ := opening
    refine ⟨allows_of_open rfl here, fun a k' answered => ?_⟩
    obtain ⟨⟨same, value⟩, logged⟩ := answered
    obtain ⟨r, value'⟩ := a
    dsimp only at value
    have told : value' = if r < 0 then 0 else sndbuf := by
      split at value
      · next negative => rw [value, if_pos negative]
      · next positive =>
        obtain ⟨s', here, value⟩ := value
        rw [sockets, Function.update_self, Option.some.injEq] at here
        rw [value, if_neg positive, ← here]
    rw [ensures_pure, told]
    refine set k' sndbuf (calls ++ [last]) r (same.trans sockets) ?_ all
    rw [logged, log]
    rfl
  rw [setSndbuf]
  split
  · rw [ensures_bind]
    exact setsockopt_ensures opening (fun r k granted opening => read k granted opening) fun k failed => closeFail_failed failed rfl
  · exact read k s.sndbuf opening

/-- **The constructor.** -/
theorem construct_ensures (sendBuffer : Int) : (construct strerror inetPton host port multicast interface sendBuffer).Ensures world
    (Opened inetPton host port multicast interface k₀) (Refused strerror inetPton host multicast interface k₀) k₀ := by
  refine socket_ensures (fun fd k negative same log => ?_) fun fd k s new opening => ?_
  · rw [if_pos negative]
    exact errno_ensures ⟨same, _, log, .socket negative⟩
  · rw [if_neg (Int.not_lt.mpr opening.legal)]
    split
    · next unreadable => exact badAddress_ensures opening fun all => .host all unreadable
    · next sinAddr named =>
      cases multicast with
      | false =>
        change (setSndbuf strerror fd sendBuffer >>= _).Ensures world _ _ k
        rw [ensures_bind]
        refine setSndbuf_ensures opening fun k sndbuf calls r sockets log all => ?_
        exact ⟨opening.legal, opening.fresh, ⟨named, rfl⟩, _, sockets, ⟨new.1, new.2⟩, nofun, calls, r, log, all, rfl⟩
      | true =>
        rw [if_pos rfl, ensures_bind]
        refine setMulticast_ensures opening rfl fun k ifaddr ifNamed opening => ?_
        rw [ensures_bind]
        refine setSndbuf_ensures opening fun k sndbuf calls r sockets log all => ?_
        exact ⟨opening.legal, opening.fresh, ⟨named, rfl⟩, _, sockets, ⟨new.1, new.2⟩, fun _ => ⟨rfl, rfl, ifNamed⟩, calls, r, log, all, rfl⟩

end

/-- **The sender's socket.** -/
theorem sender_socket (strerror : Int → String) (inetPton : String → Option (Bytes 4)) (host : String) (port : BitVec 16)
    (multicast : Bool) (interface : String) (sendBuffer : Int) (k₀ : Kernel) :
    Life (construct strerror inetPton host port multicast interface sendBuffer) Handle.fd destroy k₀
      (Opened inetPton host port multicast interface k₀) (Refused strerror inetPton host multicast interface k₀) := by
  refine life (construct_ensures sendBuffer) fun s k opened => ⟨opened.legal, ?_⟩
  obtain ⟨_, sockets, _⟩ := opened.socket
  rw [sockets, Function.update_self, Option.isSome_some]

end Nts.Mold.UdpSender
