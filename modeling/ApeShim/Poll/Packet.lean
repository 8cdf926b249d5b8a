import Mathlib.Logic.Function.Basic
import Mathlib.Data.List.Basic

/-!
The table of packet sockets (`shim/packet.c`): for the one descriptor a caller holds, the
second socket that carries the other address family. An entry is found by its number, and
leaves the table only when somebody reaps.
-/

namespace ApeShim.Poll

def PKT_MAX : Nat := 32

/-- A slot of cosmo's descriptor table. Each opening has a number of its own, which the
code does not see. -/
structure OpenFd where
  handle : Int
  opening : Nat

/-- `struct pkt_sock`, with the opening it was made for. -/
structure PktSock where
  fd : Int
  handle : Int
  fd6 : Option Int
  ifindex : Int
  opening : Nat
  apart : fd6 ≠ some fd

structure Packets where
  fds : Int → Option OpenFd
  slots : List (Option PktSock)
  openings : Nat

namespace Packets

def empty : Packets := ⟨fun _ => none, List.replicate PKT_MAX none, 0⟩

/-- The slots in use; `g_pkt_live` is how many they are. -/
def live (s : Packets) : List PktSock := s.slots.filterMap id

def fdIs (fds : Int → Option OpenFd) (fd handle : Int) : Bool :=
  match fds fd with
  | none => false
  | some o => o.handle = handle

/-- The loop of `reap_locked`. -/
def reapSlots : (Int → Option OpenFd) → List (Option PktSock) →
    (Int → Option OpenFd) × List (Option PktSock)
  | fds, [] => (fds, [])
  | fds, none :: rest => ((reapSlots fds rest).1, none :: (reapSlots fds rest).2)
  | fds, some p :: rest =>
      if fdIs fds p.fd p.handle then ((reapSlots fds rest).1, some p :: (reapSlots fds rest).2)
      else
        let fds := match p.fd6 with
          | none => fds
          | some fd6 => Function.update fds fd6 none
        ((reapSlots fds rest).1, none :: (reapSlots fds rest).2)

def reapLocked (s : Packets) : Packets :=
  { s with fds := (reapSlots s.fds s.slots).1, slots := (reapSlots s.fds s.slots).2 }

def findLocked (s : Packets) (fd : Int) : Option PktSock := s.live.find? (·.fd = fd)

/-- `__ape_shim_packet_any` -/
def packetAny (s : Packets) : Bool := !s.live.isEmpty

/-- `__ape_shim_packet_secondary` -/
def packetSecondary (s : Packets) (fd : Int) : Option Int :=
  if s.packetAny then (s.findLocked fd).bind PktSock.fd6 else none

/-- The second socket of what is open under a number now. -/
def twin (s : Packets) (fd : Int) : Option Int :=
  (s.fds fd).bind fun o =>
    (s.live.find? fun p => p.fd = fd && p.opening = o.opening).bind PktSock.fd6

/-! ## How a table comes about -/

/-- Any call that opens a descriptor. -/
def opened (s : Packets) (fd handle : Int) : Packets :=
  { s with fds := Function.update s.fds fd (some ⟨handle, s.openings⟩), openings := s.openings + 1 }

def closed (s : Packets) (fd : Int) : Packets := { s with fds := Function.update s.fds fd none }

/-- The first slot that is free is taken. -/
def takeSlot (p : PktSock) : List (Option PktSock) → Option (List (Option PktSock))
  | [] => none
  | none :: rest => some (some p :: rest)
  | some q :: rest => (takeSlot p rest).map (some q :: ·)

/-- `__ape_shim_packet_socket`, where the host's `socket` has opened `fd`. -/
def packetSocket (s : Packets) (fd handle : Int) : Packets :=
  let opening := s.openings
  let s := (s.opened fd handle).reapLocked
  match takeSlot ⟨fd, handle, none, 0, opening, by simp⟩ s.slots with
  | none => s.closed fd
  | some slots => { s with slots := slots }

/-- The last section of `__ape_shim_packet_bind`: the second socket is put in the first
entry of that number. -/
def setSecondary (fd fd6 ifindex : Int) (hne : fd6 ≠ fd) :
    List (Option PktSock) → List (Option PktSock)
  | [] => []
  | none :: rest => none :: setSecondary fd fd6 ifindex hne rest
  | some p :: rest =>
      if hp : p.fd = fd then
        some { p with fd6 := some fd6, ifindex := ifindex, apart := by simp [hp, hne] } :: rest
      else some p :: setSecondary fd fd6 ifindex hne rest

/-- `__ape_shim_packet_bind` on an interface with both addresses. -/
def packetBind (s : Packets) (fd fd6 handle6 ifindex : Int) (hne : fd6 ≠ fd) : Packets :=
  let s := s.opened fd6 handle6
  { s with slots := setSecondary fd fd6 ifindex hne s.slots }

theorem packetAny_of_find {s : Packets} {fd : Int} {p : PktSock} (h : s.findLocked fd = some p) :
    s.packetAny = true := by
  have hmem : p ∈ s.live := List.mem_of_find?_eq_some h
  cases hl : s.live with
  | nil => simp [hl] at hmem
  | cons q ps => simp [packetAny, hl]

theorem packetSecondary_eq (s : Packets) (fd : Int) :
    s.packetSecondary fd = (s.findLocked fd).bind PktSock.fd6 := by
  unfold packetSecondary
  cases hf : s.findLocked fd with
  | none => simp
  | some p => simp [packetAny_of_find hf]

theorem secondary_ne {s : Packets} {fd fd6 : Int} (h : s.packetSecondary fd = some fd6) :
    fd6 ≠ fd := by
  rw [packetSecondary_eq, Option.bind_eq_some_iff] at h
  obtain ⟨p, hp, hfd6⟩ := h
  have hfd : p.fd = fd := by simpa using List.find?_some hp
  rintro rfl
  exact p.apart (hfd ▸ hfd6)

theorem twin_ne {s : Packets} {fd fd6 : Int} (h : s.twin fd = some fd6) : fd6 ≠ fd := by
  simp only [twin, Option.bind_eq_some_iff] at h
  obtain ⟨o, _, p, hp, hfd6⟩ := h
  have hfd : p.fd = fd := by
    have := List.find?_some hp
    simp only [Bool.and_eq_true, decide_eq_true_eq] at this
    exact this.1
  rintro rfl
  exact p.apart (hfd ▸ hfd6)

end Packets

end ApeShim.Poll
