import ApeShim.Lib.Machine
import Mathlib.Data.Fin.Basic
import Mathlib.Data.List.FinRange
import Mathlib.Logic.Function.Basic

/-!
Packet sockets (`shim/packet.c`) as `shim/socket.c` reaches them: the table of the two raw
sockets behind one descriptor, binding, and receiving from both. Every opening of a
descriptor has a number of its own that the code does not see, and what happens to the
second sockets is logged, newest first.
-/

namespace ApeShim.Packet
open Trace

abbrev Bytes := List UInt8

def PKT_MAX : Nat := 32
def PKT_DRAIN_MAX : Nat := 64
def ETH_HLEN : Nat := 14
def ETH_P_IP : UInt16 := 0x0800
def ETH_P_IPV6 : UInt16 := 0x86DD
def SHIM_LIN_AF_PACKET : UInt16 := 17

inductive Err
  | EAGAIN
  | EINVAL
  | EMFILE
  | ENODEV
  | ENOTSOCK
  | EADDRNOTAVAIL
  /-- what a call of the host left, none of EAGAIN and EWOULDBLOCK -/
  | host (e : Int)
  deriving DecidableEq, Repr

/-! ## Framing -/

/-- What a raw socket has for `recv`; with nothing queued it is EAGAIN. -/
inductive Given
  | datagram (b : Bytes)
  | fails (e : Int)
  deriving DecidableEq, Repr

/-- The protocol of an IP header, if that is what stands there. -/
def etherType : Bytes → Option UInt16
  | [] => none
  | c :: b =>
      if c >>> 4 = 4 ∧ (c :: b).length ≥ 20 then some ETH_P_IP
      else if c >>> 4 = 6 ∧ (c :: b).length ≥ 40 then some ETH_P_IPV6
      else none

def frameOf (et : UInt16) (b : Bytes) : Bytes :=
  List.replicate 12 (0 : UInt8) ++ [(et >>> 8).toUInt8, (et &&& 0xFF).toUInt8] ++ b

inductive Res
  | frame (et : UInt16) (b : Bytes)
  | fails (e : Err)
  deriving DecidableEq, Repr

/-- A pass over one socket: how it ended, what is still queued, the datagrams taken, and
`*unframeable`. -/
structure Drained where
  res : Res
  rest : List Given
  taken : List Bytes
  unframeable : Bool

/-- The loop of `recv_framed`. -/
def recvLoop (room : Nat) : Nat → List Given → Drained
  | 0, q => ⟨.fails .EAGAIN, q, [], false⟩
  | _ + 1, [] => ⟨.fails .EAGAIN, [], [], false⟩
  | _ + 1, .fails e :: q => ⟨.fails (.host e), q, [], false⟩
  | k + 1, .datagram b :: q =>
      let b := b.take room
      match etherType b with
      | some et => ⟨.frame et b, q, [b], false⟩
      | none =>
          let r := recvLoop room k q
          { r with taken := b :: r.taken, unframeable := r.unframeable || b ≠ [] }

def recvFramed (n : Nat) (fd : Option Int) (queues : Int → List Given) : Drained :=
  match fd with
  | none => ⟨.fails .EAGAIN, [], [], false⟩
  | some fd =>
      if n ≤ ETH_HLEN then ⟨.fails .EINVAL, queues fd, [], false⟩
      else recvLoop (n - ETH_HLEN) PKT_DRAIN_MAX (queues fd)

/-- The variables of `__ape_shim_packet_recv`, with what was taken from either socket in
place of its number. -/
structure Progress where
  queues : Int → List Given
  from4 : List Bytes
  from6 : List Bytes
  unframeable : Bool
  bad6 : Bool

/-- One pass of its inner loop; `which` is the second socket's. -/
def attempt (n : Nat) (fds : Bool → Option Int) (which : Bool) (p : Progress) : Progress × Res :=
  let r := recvFramed n (fds which) p.queues
  ({ queues := match fds which with
      | none => p.queues
      | some fd => Function.update p.queues fd r.rest
     from4 := if which then p.from4 else p.from4 ++ r.taken
     from6 := if which then p.from6 ++ r.taken else p.from6
     unframeable := p.unframeable || r.unframeable
     bad6 := p.bad6 || (which && r.unframeable && !p.unframeable) }, r.res)

/-- Both passes. -/
def serve (n : Nat) (fds : Bool → Option Int) (first : Bool) (queues : Int → List Given) :
    Progress × Res :=
  match attempt n fds first ⟨queues, [], [], false, false⟩ with
  | (p, .fails .EAGAIN) => attempt n fds (!first) p
  | r => r

/-! ## The table -/

/-- A slot of cosmo's descriptor table. A second socket is one whose number only
`shim/packet.c` knows. -/
structure Descriptor where
  handle : Int
  opening : Nat
  secondary : Bool
  deriving DecidableEq, Repr

structure PktSock where
  fd : Int
  handle : Int
  fd6 : Option Int
  ifindex : Int
  turn : Bool
  deriving DecidableEq, Repr

structure State where
  fds : Int → Option Descriptor
  slots : Fin PKT_MAX → Option PktSock
  /-- `g_pkt_live` -/
  live : Int
  openings : Nat
  queues : Int → List Given

inductive Answer
  | frame (b sll : Bytes)
  | empty
  | fails (e : Err)
  deriving DecidableEq, Repr

/-- A call of `__ape_shim_packet_recv`: its entry, which socket was asked first and whether
there was a second one, what was taken from each, the answer, and whether there is a second
one afterwards. -/
structure Call where
  slot : Fin PKT_MAX
  first : Bool
  both : Bool
  from4 : List Bytes
  from6 : List Bytes
  answer : Answer
  kept : Bool
  deriving DecidableEq, Repr

inductive Obs
  /-- a second socket is opened, or closed -/
  | opened6 (opening : Nat)
  | closed6 (opening : Nat)
  /-- an entry is made -/
  | taken (slot : Fin PKT_MAX)
  | call (c : Call)
  deriving DecidableEq, Repr

namespace State

def init : State := ⟨fun _ => none, fun _ => none, 0, 0, fun _ => []⟩

/-- A call of the host that opens a descriptor. -/
def openFd (s : State) (fd handle : Int) (secondary : Bool) : State :=
  { s with
    fds := Function.update s.fds fd (some ⟨handle, s.openings, secondary⟩)
    openings := s.openings + 1
    queues := Function.update s.queues fd [] }

def closeFd (s : State) (fd : Int) : State := { s with fds := Function.update s.fds fd none }

/-- `close` of a second socket. -/
def closeSecond (s : State) (fd : Int) : State × List Obs :=
  (s.closeFd fd, match s.fds fd with
    | none => []
    | some d => [.closed6 d.opening])

def setSlot (s : State) (i : Fin PKT_MAX) (p : Option PktSock) : State :=
  { s with slots := Function.update s.slots i p }

def fdIs (s : State) (fd handle : Int) : Bool := (s.fds fd).any (·.handle = handle)

/-- A pass of the loop of `reap_locked`. -/
def reapSlot (s : State) (i : Fin PKT_MAX) : State × List Obs :=
  match s.slots i with
  | none => (s, [])
  | some p =>
      if s.fdIs p.fd p.handle then (s, [])
      else
        let (s, out) := match p.fd6 with
          | none => (s, [])
          | some fd6 => s.closeSecond fd6
        ({ s.setSlot i none with live := s.live - 1 }, out)

def reapFrom : List (Fin PKT_MAX) → State → State × List Obs
  | [], s => (s, [])
  | i :: is, s =>
      let (s, out) := s.reapSlot i
      let (s, out') := reapFrom is s
      (s, out' ++ out)

def reapLocked (s : State) : State × List Obs := reapFrom (List.finRange PKT_MAX) s

def findLocked (s : State) (fd : Int) : Option (Fin PKT_MAX × PktSock) :=
  (List.finRange PKT_MAX).findSome? fun i =>
    (s.slots i).bind fun p => if p.fd = fd then some (i, p) else none

/-- `__ape_shim_packet_is`: the table afterwards is what the caller's routing sees. -/
def packetIs (s : State) : State × List Obs := if s.live = 0 then (s, []) else s.reapLocked

/-- `__ape_shim_packet_socket`, where the host's `socket` has given `fd`. -/
def packetSocket (s : State) (fd handle : Int) : (State × List Obs) × Except Err Int :=
  let (s, out) := (s.openFd fd handle false).reapLocked
  match (List.finRange PKT_MAX).find? fun i => (s.slots i).isNone with
  | none => ((s.closeFd fd, out), .error .EMFILE)
  | some i =>
      (({ s.setSlot i (some ⟨fd, handle, none, 0, false⟩) with live := s.live + 1 },
        .taken i :: out), .ok fd)

/-- What `adapter_addrs` finds of an interface, and what becomes of its addresses: whether
`sniff_on` works on the first socket, or its error; the second socket that the host gives,
and whether `sniff_on` works on that. -/
structure Adapter where
  v4 : Option (Except Int Unit)
  v6 : Option (Option (Int × Int × Bool))

/-- The number of the second socket, if one is opened. -/
def Adapter.number (a : Adapter) : Option Int := a.v6.bind fun o => o.map Prod.fst

/-- The second half of `__ape_shim_packet_bind`: the second socket, made and tried. -/
def openSecond (s : State) (a : Adapter) : (State × List Obs) × Option Int :=
  match a.v6 with
  | some (some (fd6, handle, sniffs)) =>
      let k := s.openings
      let s := s.openFd fd6 handle true
      if sniffs then ((s, [.opened6 k]), some fd6)
      else
        let (s, out) := s.closeSecond fd6
        ((s, out ++ [.opened6 k]), none)
  | _ => ((s, []), none)

/-- `__ape_shim_packet_bind`; there is no address where it is missing or too short. -/
def packetBind (s : State) (fd : Int) (addr : Option Int) (adapter : Option Adapter) :
    (State × List Obs) × Except Err Unit :=
  match addr with
  | none => ((s, []), .error .EINVAL)
  | some ifindex =>
      if ifindex ≤ 0 then ((s, []), .error .EINVAL)
      else
        match adapter with
        | none => ((s, []), .error .ENODEV)
        | some a =>
            match s.findLocked fd with
            | none => ((s, []), .error .ENOTSOCK)
            | some (i, p) =>
                let p := { p with ifindex }
                let ((s, out), fd6) := (s.setSlot i (some p)).openSecond a
                match a.v4, fd6 with
                | some (.error e), none => ((s, out), .error (.host e))
                | none, none => ((s, out), .error .EADDRNOTAVAIL)
                | _, _ => ((s.setSlot i (some { p with fd6 }), out), .ok ())

/-- `fill_sll`, into as many bytes as `*alen` says. -/
def fillSll (ifindex : Int) (et : UInt16) : Option Nat → Bytes
  | none => []
  | some alen =>
      ([(SHIM_LIN_AF_PACKET &&& 0xFF).toUInt8, (SHIM_LIN_AF_PACKET >>> 8).toUInt8,
        (et >>> 8).toUInt8, (et &&& 0xFF).toUInt8] ++
        (List.range 4).map (fun k => UInt8.ofNat (ifindex.toNat >>> (8 * k))) ++
        List.replicate 12 0).take alen

/-- `drop_secondary`. -/
def dropSecondary (s : State) (fd : Int) : State × List Obs :=
  match s.findLocked fd with
  | none => (s, [])
  | some (i, p) =>
      match p.fd6 with
      | none => (s, [])
      | some fd6 =>
          let (s, out) := s.closeSecond fd6
          (s.setSlot i (some { p with fd6 := none, turn := false }), out)

def answerOf (ifindex : Int) (alen : Option Nat) (p : Progress) : Res → Answer
  | .frame et b => .frame (frameOf et b) (fillSll ifindex et alen)
  | .fails .EAGAIN => if p.from4 = [] ∧ p.from6 = [] then .fails .EAGAIN else .empty
  | .fails e => .fails e

/-- `__ape_shim_packet_recv`. -/
def packetRecv (s : State) (fd : Int) (n : Nat) (alen : Option Nat) : State × List Obs :=
  match s.findLocked fd with
  | none => (s, [])
  | some (i, p) =>
      let first := p.turn
      let s := s.setSlot i (some { p with turn := p.fd6.isSome && !p.turn })
      let (g, r) := serve n (fun which => if which then p.fd6 else some p.fd) first s.queues
      let s := { s with queues := g.queues }
      let (s, out) := if r = .fails .EAGAIN ∧ g.bad6 = true then s.dropSecondary fd else (s, [])
      (s, .call ⟨i, first, p.fd6.isSome, g.from4, g.from6, answerOf p.ifindex alen g r,
        ((s.slots i).bind PktSock.fd6).isSome⟩ :: out)

end State

/-! ## Runs -/

inductive Label
  | socket (fd handle : Int)
  | bind (fd : Int) (addr : Option Int) (adapter : Option State.Adapter)
  | recv (fd : Int) (n : Nat) (alen : Option Nat)
  /-- anybody's `close` of a descriptor they were given -/
  | close (fd : Int)
  | reap
  /-- any other call that opens a descriptor -/
  | opened (fd handle : Int)
  | arrive (fd : Int) (g : Given)

/-- `bind` and `recv` come through `__ape_shim_packet_is`; a call on a descriptor that is
not a packet socket is none of this file's. -/
def State.step (s : State) : Label → Option (State × List Obs)
  | .socket fd handle => if s.fds fd = none then some (s.packetSocket fd handle).1 else none
  | .bind fd addr adapter =>
      let (s, out) := s.packetIs
      if ∀ k ∈ adapter.bind State.Adapter.number, s.fds k = none then
        let (s, out') := (s.packetBind fd addr adapter).1
        some (s, out' ++ out)
      else none
  | .recv fd n alen =>
      let (s, out) := s.packetIs
      let (s, out') := s.packetRecv fd n alen
      some (s, out' ++ out)
  | .close fd =>
      match s.fds fd with
      | none => none
      | some d => if d.secondary then none else some (s.closeFd fd, [])
  | .reap => some s.packetIs
  | .opened fd handle => if s.fds fd = none then some (s.openFd fd handle false, []) else none
  | .arrive fd g => some ({ s with queues := Function.update s.queues fd (s.queues fd ++ [g]) }, [])

def packetMachine : Machine State Label Obs := ⟨State.init, State.step⟩

end ApeShim.Packet
