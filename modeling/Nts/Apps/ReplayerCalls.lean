import Nts.Apps.ReplayerMainRuns
import Nts.Mold.UdpSender

/-!
# `main` of the replayer and its calls (`apps/replayer/main.cc`)

As a program of system calls, from the socket on: the sender is constructed, each packet is handed to `sendto`, and the destructor
runs. `ReplayerMain.run` takes what `sendto` returns from an environment; here the kernel returns it, and `Simulates` says
that the program ends as the run does in the environment of what it was told.
-/

namespace Nts.Apps
open Calls Kernel Reading Itch Mold

namespace ReplayerCalls

section
variable (o : MainOptions) (due now : Nat → BitVec 64) (h : UdpSender.Handle) (mem : Memory)

/-- A call of `sender.send`. -/
def send (m : ReplayerMain) (pkt : List Byte) : Setup ReplayerMain := do
  let n : Int ← ask (SysCall.sendto h.fd pkt h.dest)
  let result := m.sender.send n pkt
  pure { m with sender := result.1, sent := m.sent ++ [pkt], onWire := if result.2 then m.onWire ++ [pkt] else m.onWire }

/-- `flush`. -/
def flush (m : ReplayerMain) : Setup ReplayerMain :=
  if m.packer.empty then pure m
  else do
    let seq := m.packer.packetSequence
    let count := m.packer.count
    let (packer, reply) := m.packer.finish
    let pkt := reply.packet.getD []
    let index := m.packetsBuilt
    let (gaps, drop) := m.gaps.shouldDrop (.ofNat 64 index)
    let m := { m with packer, packetsBuilt := m.packetsBuilt + 1, gaps }
    let taken : Setup ReplayerMain :=
      if drop then pure { m with packetsDropped := m.packetsDropped + 1, drops := m.drops ++ [⟨seq, count.setWidth 64, index⟩] }
      else send h m pkt
    let m ← taken
    pure (if o.scheduleLog then { m with schedule := m.schedule ++ [⟨seq, count, due index, now index, drop⟩] } else m)

/-- One round of the loop; the flag says that it is left. -/
def onMessage (m : ReplayerMain) (mv : MessageView) : Setup (ReplayerMain × Bool) :=
  let m := { m with messagesRead := m.messagesRead + 1 }
  if m.packer.tooLarge mv.size then pure ({ m with tooLarge := m.tooLarge + 1 }, false)
  else
    let msg := (readBytes mv.data mv.size).value mem
    let (packer, added) := m.packer.tryAdd msg
    let m := { m with packer }
    if !added.accepted then do
      let m ← flush o due now h m
      if o.maxPackets ≠ 0 ∧ m.packetsBuilt ≥ o.maxPackets then pure ({ m with stoppedEarly := true }, true)
      else
        let (packer, again) := m.packer.tryAdd msg
        let m := { m with packer }
        if !again.accepted then pure ({ m with refused := true }, true)
        else pure ({ m with messagesPacked := m.messagesPacked + 1 }, false)
    else pure ({ m with messagesPacked := m.messagesPacked + 1 }, false)

/-- The loop, over the messages of the file. -/
def loop (m : ReplayerMain) : List MessageView → Setup ReplayerMain
  | [] => pure m
  | mv :: mvs => do
    let (m, left) ← onMessage o due now h mem m mv
    if left then pure m else loop m mvs

/-- Behind the loop. -/
def close (m : ReplayerMain) : Setup ReplayerMain :=
  if m.refused then pure m
  else do
    let m := if m.stoppedEarly then { m with messagesRead := m.messagesRead - 1 } else m
    let m ← flush o due now h m
    let (packer, reply) := m.packer.endOfSession
    send h { m with packer } (reply.packet.getD [])

/-- What stands between the constructor and the destructor. -/
def body (mvs : List MessageView) : Setup ReplayerMain := do
  let m ← loop o due now h mem { packer := .new (makeSession o.session) 1 o.maxPayload, gaps := o.gaps } mvs
  close o due now h m

/-- `main` behind `read_file`: what it returns, and its variables where the constructor did not throw. -/
def main (strerror : Int → String) (inetPton : String → Option (Bytes 4)) (host : String) (port : BitVec 16) (multicast : Bool)
    (interface : String) (sndbuf : Int) (mvs : List MessageView) : Setup (Nat × Option ReplayerMain) := do
  let sender ← attempt (UdpSender.construct strerror inetPton host port multicast interface sndbuf)
  match sender with
  | .error _ => pure (2, none)
  | .ok h =>
    let m ← body o due now h mem mvs
    UdpSender.destroy h
    pure (m.exitCode, some m)

end

/-! ## Datagrams -/

/-- What some calls of `sendto` leave of the kernel. -/
structure Sends (h : UdpSender.Handle) (k : Kernel) (calls : List Entry) (pkts : List (List Byte)) (k' : Kernel) : Prop where
  log : k'.log = k.log ++ calls
  calls : calls.map Entry.call = pkts.map fun pkt => .sendto h.fd pkt h.dest
  sockets : ∃ s, k'.sockets = Function.update k.sockets h.fd (some s)

section
variable {h : UdpSender.Handle} {k k' k'' : Kernel} {calls calls' : List Entry} {pkts pkts' : List (List Byte)}

theorem Sends.is_open (sends : Sends h k calls pkts k') : (k'.sockets h.fd).isSome = true := by
  obtain ⟨s, sockets⟩ := sends.sockets
  rw [sockets, Function.update_self, Option.isSome_some]

theorem Sends.length (sends : Sends h k calls pkts k') : pkts.length = calls.length := by
  have same := congrArg List.length sends.calls
  rw [List.length_map, List.length_map] at same
  exact same.symm

theorem Sends.refl (here : (k.sockets h.fd).isSome = true) : Sends h k [] [] k := by
  obtain ⟨s, here⟩ := Option.isSome_iff_exists.mp here
  exact ⟨(List.append_nil _).symm, rfl, s, by rw [← here, Function.update_eq_self]⟩

theorem Sends.trans (first : Sends h k calls pkts k') (second : Sends h k' calls' pkts' k'') :
    Sends h k (calls ++ calls') (pkts ++ pkts') k'' := by
  obtain ⟨s, sockets⟩ := first.sockets
  obtain ⟨s', sockets'⟩ := second.sockets
  refine ⟨?_, ?_, s', ?_⟩
  · rw [second.log, first.log, List.append_assoc]
  · rw [List.map_append, List.map_append, first.calls, second.calls]
  · rw [sockets', sockets, Function.update_idem]

/-- `sendto` returned, from the `n`th datagram on, what `ns` gives. -/
def Told (ns : Nat → Int) (n : Nat) (calls : List Entry) : Prop := ∀ i c, calls[i]? = some c → ns (n + i) = c.returned

theorem told_append {ns : Nat → Int} {n : Nat} : Told ns n (calls ++ calls') ↔ Told ns n calls ∧ Told ns (n + calls.length) calls' := by
  constructor
  · intro told
    refine ⟨fun i c found => ?_, fun i c found => ?_⟩
    · refine told i c ?_
      rw [List.getElem?_append_left (List.getElem?_eq_some_iff.mp found).1]
      exact found
    · rw [Nat.add_assoc]
      refine told _ c ?_
      rw [List.getElem?_append_right (Nat.le_add_right _ _), Nat.add_sub_cancel_left]
      exact found
  · rintro ⟨first, second⟩ i c found
    by_cases before : i < calls.length
    · rw [List.getElem?_append_left before] at found
      exact first i c found
    · have here := second (i - calls.length) c (by rwa [List.getElem?_append_right (by omega)] at found)
      rwa [Nat.add_assoc, Nat.add_sub_of_le (by omega)] at here

end

/-! ## Simulation -/

/-- From `m` on, the program ends with what `f` gives for what `sendto` returned. -/
def Simulates {α : Type} (h : UdpSender.Handle) (m : ReplayerMain) (f : (Nat → Int) → α) (s : α → ReplayerMain) (p : Setup α) : Prop :=
  ∀ k : Kernel, (k.sockets h.fd).isSome = true → p.Ensures world (fun a k' => ∃ calls pkts, Sends h k calls pkts k' ∧
    (s a).sent = m.sent ++ pkts ∧ ∀ ns, Told ns m.sent.length calls → f ns = a) (fun _ _ => False) k

section
variable {α β : Type} {h : UdpSender.Handle} {m : ReplayerMain} {f : (Nat → Int) → α} {s : α → ReplayerMain} {p : Setup α}

theorem simulates_pure {a : α} (same : (s a).sent = m.sent) : Simulates h m (fun _ => a) s (pure a) := fun _ here =>
  ⟨[], [], .refl here, by rw [same, List.append_nil], fun _ _ => rfl⟩

theorem Simulates.bind {g : α → (Nat → Int) → β} {s' : β → ReplayerMain} {q : α → Setup β} (first : Simulates h m f s p)
    (rest : ∀ a, Simulates h (s a) (g a) s' (q a)) : Simulates h m (fun ns => g (f ns) ns) s' (p >>= q) := by
  intro k here
  rw [ensures_bind]
  refine (first k here).mono (fun a k' ended => ?_) fun _ _ => id
  obtain ⟨calls, pkts, sends, sent, told⟩ := ended
  refine (rest a k' sends.is_open).mono (fun b k'' ended => ?_) fun _ _ => id
  obtain ⟨calls', pkts', sends', sent', told'⟩ := ended
  refine ⟨calls ++ calls', pkts ++ pkts', sends.trans sends', by rw [sent', sent, List.append_assoc], fun ns both => ?_⟩
  obtain ⟨before, behind⟩ := told_append.mp both
  change g (f ns) ns = b
  rw [told ns before]
  refine told' ns ?_
  rwa [sent, List.length_append, sends.length]

/-- Only the datagrams sent so far are looked at. -/
theorem Simulates.start {m' : ReplayerMain} (simulates : Simulates h m f s p) (same : m'.sent = m.sent) :
    Simulates h m' f s p := by
  unfold Simulates at simulates ⊢
  rwa [same]

theorem Simulates.congr {f' : (Nat → Int) → α} (simulates : Simulates h m f s p) (run : ∀ ns, f' ns = f ns) :
    Simulates h m f' s p := by
  rwa [show f' = f from funext run]

end

section
variable {o : MainOptions} {due now : Nat → BitVec 64} {h : UdpSender.Handle} {mem : Memory}

theorem simulates_send (m : ReplayerMain) (pkt : List Byte) :
    Simulates h m (fun ns => m.send ⟨ns, due, now⟩ pkt) id (send h m pkt) := by
  intro k here
  rw [send, ensures_bind, ensures_ask]
  refine ⟨allows_of_open rfl here, fun n k' answered => ?_⟩
  obtain ⟨⟨s, bound, _, sockets⟩, logged⟩ := answered
  refine ⟨[⟨.sendto h.fd pkt h.dest, n, k'.errno⟩], [pkt], ⟨logged, rfl, _, sockets⟩, rfl, fun ns told => ?_⟩
  have first : ns m.sent.length = n := told 0 _ rfl
  subst first
  rfl

theorem simulates_flush (m : ReplayerMain) : Simulates h m (fun ns => m.flush o ⟨ns, due, now⟩) id (flush o due now h m) := by
  by_cases empty : m.packer.empty = true
  · rw [flush, if_pos empty]
    exact (simulates_pure rfl).congr fun _ => if_pos empty
  · let drop : Bool := (m.gaps.shouldDrop (.ofNat 64 m.packetsBuilt)).2
    let taken : ReplayerMain := { m with
      packer := m.packer.finish.1
      packetsBuilt := m.packetsBuilt + 1
      gaps := (m.gaps.shouldDrop (.ofNat 64 m.packetsBuilt)).1 }
    let pkt := m.packer.finish.2.packet.getD []
    let dropped : ReplayerMain := { taken with
      packetsDropped := taken.packetsDropped + 1
      drops := taken.drops ++ [⟨m.packer.packetSequence, m.packer.count.setWidth 64, m.packetsBuilt⟩] }
    let row : ScheduleEntry := ⟨m.packer.packetSequence, m.packer.count, due m.packetsBuilt, now m.packetsBuilt, drop⟩
    let logged (m' : ReplayerMain) : ReplayerMain := if o.scheduleLog then { m' with schedule := m'.schedule ++ [row] } else m'
    have run : ∀ ns, m.flush o ⟨ns, due, now⟩ = logged (if drop then dropped else taken.send ⟨ns, due, now⟩ pkt) :=
      fun _ => if_neg empty
    have program : flush o due now h m = (if drop then pure dropped else send h taken pkt) >>= fun m' => pure (logged m') := by
      rw [flush, if_neg empty]
    have sent : ∀ m', (logged m').sent = m'.sent := by
      intro m'
      change (if _ then _ else _ : ReplayerMain).sent = _
      split <;> rfl
    have first : Simulates h m (fun ns => if drop then dropped else taken.send ⟨ns, due, now⟩ pkt) id
        (if drop then pure dropped else send h taken pkt) := by
      cases drop with
      | true => exact simulates_pure rfl
      | false => exact (simulates_send taken pkt).start rfl
    rw [program]
    exact (first.bind (g := fun m' _ => logged m') fun m' => simulates_pure (sent m')).congr run

theorem simulates_onMessage (m : ReplayerMain) (mv : MessageView) :
    Simulates h m (fun ns => (m.onMessage o ⟨ns, due, now⟩ mv).value mem) Prod.fst (onMessage o due now h mem m mv) := by
  unfold onMessage ReplayerMain.onMessage
  dsimp only
  by_cases large : m.packer.tooLarge mv.size = true
  · simp only [if_pos large, value_pure]
    exact simulates_pure rfl
  · simp only [if_neg large, value_bind]
    generalize (readBytes mv.data mv.size).value mem = msg
    cases accepted : (m.packer.tryAdd msg).2.accepted with
    | true => exact simulates_pure rfl
    | false =>
      simp only [Bool.not_false, if_true]
      -- the packet is full: it is flushed, and the next one is offered the message again
      let full : ReplayerMain := { m with messagesRead := m.messagesRead + 1, packer := (m.packer.tryAdd msg).1 }
      let retry (u : ReplayerMain) : Reading (ReplayerMain × Bool) :=
        if o.maxPackets ≠ 0 ∧ u.packetsBuilt ≥ o.maxPackets then pure ({ u with stoppedEarly := true }, true)
        else if (!(u.packer.tryAdd msg).2.accepted) = true then
          pure ({ u with packer := (u.packer.tryAdd msg).1, refused := true }, true)
        else pure ({ u with packer := (u.packer.tryAdd msg).1, messagesPacked := u.messagesPacked + 1 }, false)
      have first : Simulates h m (fun ns => full.flush o ⟨ns, due, now⟩) id (flush o due now h full) :=
        (simulates_flush full).start rfl
      refine first.bind (g := fun u _ => (retry u).value mem) fun u => ?_
      by_cases last : o.maxPackets ≠ 0 ∧ u.packetsBuilt ≥ o.maxPackets
      · simp only [retry, if_pos last, value_pure]
        exact simulates_pure rfl
      · simp only [retry, if_neg last]
        split
        · exact simulates_pure rfl
        · exact simulates_pure rfl

theorem simulates_loop (m : ReplayerMain) (mvs : List MessageView) :
    Simulates h m (fun ns => (Runs.afterUntil (fun m mv => (ReplayerMain.onMessage o ⟨ns, due, now⟩ m mv).value mem) m mvs).1) id
      (loop o due now h mem m mvs) := by
  induction mvs generalizing m with
  | nil => exact simulates_pure rfl
  | cons mv mvs ih =>
    let behind (r : ReplayerMain × Bool) (ns : Nat → Int) : ReplayerMain :=
      if r.2 then r.1 else (Runs.afterUntil (fun m mv => (ReplayerMain.onMessage o ⟨ns, due, now⟩ m mv).value mem) r.1 mvs).1
    have rest : ∀ r : ReplayerMain × Bool, Simulates h r.1 (behind r) id (if r.2 then pure r.1 else loop o due now h mem r.1 mvs) := by
      rintro ⟨m', left⟩
      cases left with
      | true => exact simulates_pure rfl
      | false => exact ih m'
    rw [loop]
    refine ((simulates_onMessage m mv).bind (g := behind) rest).congr fun ns => ?_
    rw [Runs.afterUntil]
    exact apply_ite Prod.fst _ _ _

theorem simulates_close (m : ReplayerMain) : Simulates h m (fun ns => m.close o ⟨ns, due, now⟩) id (close o due now h m) := by
  by_cases refused : m.refused = true
  · rw [close, if_pos refused]
    exact (simulates_pure rfl).congr fun _ => if_pos refused
  · let undone : ReplayerMain := if m.stoppedEarly then { m with messagesRead := m.messagesRead - 1 } else m
    let last (m' : ReplayerMain) (ns : Nat → Int) : ReplayerMain :=
      { m' with packer := m'.packer.endOfSession.1 }.send ⟨ns, due, now⟩ (m'.packer.endOfSession.2.packet.getD [])
    have run : ∀ ns, m.close o ⟨ns, due, now⟩ = last (undone.flush o ⟨ns, due, now⟩) ns := fun _ => if_neg refused
    have same : m.sent = undone.sent := by
      change _ = (if _ then _ else _ : ReplayerMain).sent
      split <;> rfl
    rw [close, if_neg refused]
    exact (((simulates_flush undone).start same).bind (g := last) fun m' => (simulates_send _ _).start rfl).congr run

theorem simulates_body (m : ReplayerMain) (mvs : List MessageView) :
    Simulates h m (fun ns => ((Runs.afterUntil (fun m mv => (ReplayerMain.onMessage o ⟨ns, due, now⟩ m mv).value mem) m mvs).1).close o
      ⟨ns, due, now⟩) id (loop o due now h mem m mvs >>= close o due now h) :=
  (simulates_loop m mvs).bind (g := fun m' ns => m'.close o ⟨ns, due, now⟩) fun m' => simulates_close m'

end

/-- What `sendto` returned, call by call. -/
def returns (calls : List Entry) (i : Nat) : Int := (calls[i]?.map Entry.returned).getD 0

theorem told_returns (calls : List Entry) : Told (returns calls) 0 calls := by
  intro i c found
  rw [Nat.zero_add, returns, found]
  rfl

/-- The loop over the file is the loop over its messages. -/
theorem run_value (mem : Memory) (o : MainOptions) (e : Environment) (data size : Nat) : (ReplayerMain.run o e data size).value mem =
    ((Runs.afterUntil (fun m mv => (ReplayerMain.onMessage o e m mv).value mem)
      { packer := .new (makeSession o.session) 1 o.maxPayload, gaps := o.gaps } (Framer.handedOut mem ⟨data, size, 0⟩)).1).close o e := by
  obtain ⟨loop, _⟩ := Framer.walkUntil_value mem (f := ⟨data, size, 0⟩) (ReplayerMain.onMessage o e)
    { packer := .new (makeSession o.session) 1 o.maxPayload, gaps := o.gaps } rfl
  rw [← loop, ReplayerMain.run]
  simp only [value_bind, value_pure]

end ReplayerCalls
open ReplayerCalls

section
variable (strerror : Int → String) (inetPton : String → Option (Bytes 4)) (host : String) (port : BitVec 16) (multicast : Bool)
  (interface : String) (o : MainOptions) (due now : Nat → BitVec 64) (mem : Memory) (data size : Nat) (k₀ : Kernel)

/-- How `main` ends: with 2 where the constructor threw, else with what the run gives in the environment of what `sendto` returned,
which was handed the run's datagrams in order. Either way the process has the sockets it had. -/
inductive MainEnded : Nat × Option ReplayerMain → Kernel → Prop where
  | threw {text : String} {k : Kernel} (refused : UdpSender.Refused strerror inetPton host multicast interface k₀ text k) :
    MainEnded (2, none) k
  | ran {h : UdpSender.Handle} {k₁ k : Kernel} {calls : List Entry} {m : ReplayerMain} {r : Int}
    (opened : UdpSender.Opened inetPton host port multicast interface k₀ h k₁)
    (log : k.log = k₁.log ++ calls ++ [⟨.close h.fd, r, k.errno⟩])
    (sockets : k.sockets = k₀.sockets)
    (sent : calls.map Entry.call = m.sent.map fun pkt => .sendto h.fd pkt h.dest)
    (run : m = (ReplayerMain.run o ⟨returns calls, due, now⟩ data size).value mem)
    (exit : m.exitCode = 0 ↔ ∀ c ∈ calls, ∃ pkt, c.call = .sendto h.fd pkt h.dest ∧ c.returned = pkt.length) :
    MainEnded (m.exitCode, some m) k

variable {strerror inetPton host port multicast interface o due now mem data size k₀}

/-- A datagram is taken whole where the call says so. -/
theorem returned_whole {h : UdpSender.Handle} {calls : List Entry} {pkts : List (List Byte)}
    (sent : calls.map Entry.call = pkts.map fun pkt => .sendto h.fd pkt h.dest) :
    (∀ i pkt, pkts[i]? = some pkt → returns calls i = pkt.length) ↔
      ∀ c ∈ calls, ∃ pkt, c.call = .sendto h.fd pkt h.dest ∧ c.returned = pkt.length := by
  induction calls generalizing pkts with
  | nil =>
    rw [List.map_nil, eq_comm, List.map_eq_nil_iff] at sent
    subst sent
    exact iff_of_true (fun i pkt found => by cases found) (fun c member => by cases member)
  | cons c calls ih =>
    cases pkts with
    | nil => cases sent
    | cons first pkts =>
      obtain ⟨here, rest⟩ := List.cons.inj sent
      rw [List.forall_mem_cons, ← ih rest]
      constructor
      · intro all
        exact ⟨⟨first, here, all 0 first rfl⟩, fun i pkt found => all (i + 1) pkt found⟩
      · rintro ⟨⟨pkt, named, whole⟩, all⟩ i pkt' found
        cases i with
        | zero =>
          rw [here] at named
          cases named
          cases found
          exact whole
        | succ i => exact all i pkt' found

theorem main_ensures (sndbuf : Int) : (ReplayerCalls.main o due now mem strerror inetPton host port multicast interface sndbuf
    (Framer.handedOut mem ⟨data, size, 0⟩)).Ensures world
      (MainEnded strerror inetPton host port multicast interface o due now mem data size k₀) (fun _ _ => False) k₀ := by
  rw [ReplayerCalls.main, ensures_bind, ensures_attempt]
  have built : (UdpSender.construct strerror inetPton host port multicast interface sndbuf).Ensures world
      (UdpSender.Opened inetPton host port multicast interface k₀)
      (UdpSender.Refused strerror inetPton host multicast interface k₀) k₀ := UdpSender.construct_ensures sndbuf
  refine built.mono (fun h k₁ opened => ?_) fun text k refused => .threw refused
  obtain ⟨s, sockets₁, _⟩ := opened.socket
  have here : (k₁.sockets h.fd).isSome = true := by rw [sockets₁, Function.update_self, Option.isSome_some]
  change (body o due now h mem (Framer.handedOut mem ⟨data, size, 0⟩) >>= _).Ensures world _ _ k₁
  rw [ensures_bind]
  refine (simulates_body _ _ k₁ here).mono (fun m k₂ ended => ?_) fun _ _ => id
  obtain ⟨calls, pkts, sends, sent, told⟩ := ended
  rw [ensures_bind]
  refine (closeOwned_ensures opened.legal sends.is_open).mono (fun _ k closed => ?_) fun _ _ => id
  obtain ⟨closed, r, logged⟩ := closed
  have run : m = (ReplayerMain.run o ⟨returns calls, due, now⟩ data size).value mem := by
    rw [run_value]
    exact (told _ (told_returns calls)).symm
  have all : m.sent = pkts := sent
  have made := sends.calls
  rw [← all] at made
  obtain ⟨s', sockets₂⟩ := sends.sockets
  refine .ran opened (r := r) (by rw [logged, sends.log]) ?_ made run ?_
  · rw [closed, sockets₂, sockets₁, Function.update_idem, closed_again opened.fresh]
  · rw [← returned_whole made, run]
    obtain ⟨same, rows, ran⟩ := ReplayerMain.run_logged mem o ⟨returns calls, due, now⟩ data size
    have packs := Replayer.run_packs mem o.loop data size
    rw [← same] at packs
    exact ReplayerMain.exitCode_eq_zero packs ran

end

/-- **The calls of the replayer.** In every run it names only descriptors that are open and ends as `MainEnded` says. The
packer's buffer, of `kHeaderSize + maxPayload` bytes without a wrap, can be allocated. -/
theorem replayer_calls (strerror : Int → String) (inetPton : String → Option (Bytes 4)) (host : String) (port : BitVec 16)
    (multicast : Bool) (interface : String) (sndbuf : Int) (o : MainOptions) (due now : Nat → BitVec 64) (mem : Memory)
    (data size : Nat) (k₀ : Kernel) :
    let p := ReplayerCalls.main o due now mem strerror inetPton host port multicast interface sndbuf
      (Framer.handedOut mem ⟨data, size, 0⟩)
    (∀ k q, Asks world k₀ p k q → world.allows k q) ∧ ∀ r k, Ends world k₀ p r k →
      ∃ a, r = .ok a ∧ MainEnded strerror inetPton host port multicast interface o due now mem data size k₀ a k := by
  intro p
  have ensured : p.Ensures world (MainEnded strerror inetPton host port multicast interface o due now mem data size k₀)
      (fun _ _ => False) k₀ := main_ensures sndbuf
  obtain ⟨asks, done, raised⟩ := ensures_iff.mp ensured
  refine ⟨asks, fun r k ends => ?_⟩
  cases r with
  | ok a => exact ⟨a, rfl, done a k ends⟩
  | error text => exact (raised text k ends).elim

end Nts.Apps
