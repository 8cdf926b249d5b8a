import Mathlib.Data.BitVec
import Mathlib.Data.Set.Function

/-!
The option numbers of `shim/socket.c`: the tables of `shim/tables.h`, from musl's
numbers to whatever the host's constants are at run time, and `lookup` and
`lookup_to_linux` over them.
-/

namespace ApeShim.Socket

abbrev Num := BitVec 32

def linSolSocket : Num := 1#32
def linIpprotoIp : Num := 0#32
def linIpprotoTcp : Num := 6#32
def linIpprotoIpv6 : Num := 41#32
def linSoError : Num := 4#32
def linSoReuseport : Num := 15#32

/-- `SHIM_SO_TABLE`: REUSEADDR, TYPE, ERROR, DONTROUTE, BROADCAST, SNDBUF, RCVBUF,
KEEPALIVE, OOBINLINE, LINGER, REUSEPORT, RCVLOWAT, SNDLOWAT, RCVTIMEO, SNDTIMEO,
ACCEPTCONN. -/
def linSo : List Num :=
  [2#32, 3#32, 4#32, 5#32, 6#32, 7#32, 8#32, 9#32, 10#32, 13#32, 15#32, 18#32, 19#32, 20#32, 21#32,
    30#32]

/-- `SHIM_TCP_TABLE`: NODELAY, MAXSEG, CORK, KEEPIDLE, KEEPINTVL, KEEPCNT, SYNCNT,
DEFER_ACCEPT, FASTOPEN, QUICKACK. -/
def linTcp : List Num := [1#32, 2#32, 3#32, 4#32, 5#32, 6#32, 7#32, 9#32, 23#32, 12#32]

/-- `SHIM_IP_TABLE`: TOS, TTL, HDRINCL, OPTIONS, RECVTOS, RECVTTL, MULTICAST_IF,
MULTICAST_TTL, MULTICAST_LOOP, ADD_MEMBERSHIP, DROP_MEMBERSHIP, PKTINFO. -/
def linIp : List Num :=
  [1#32, 2#32, 3#32, 4#32, 13#32, 12#32, 32#32, 33#32, 34#32, 35#32, 36#32, 8#32]

/-- `SHIM_IPV6_TABLE`: V6ONLY, UNICAST_HOPS, MULTICAST_IF, MULTICAST_HOPS,
MULTICAST_LOOP, JOIN_GROUP, LEAVE_GROUP, TCLASS, RECVTCLASS, PKTINFO. -/
def linIpv6 : List Num :=
  [26#32, 16#32, 17#32, 18#32, 19#32, 20#32, 21#32, 67#32, 66#32, 50#32]

/-- The host's constants, each named by the Linux number of its table row. -/
structure Consts where
  solSocket : Num
  so : Num → Num
  tcp : Num → Num
  ip : Num → Num
  ipv6 : Num → Num

/-- A `struct opt` array: Linux number, host number. -/
abbrev Table := List (Num × Num)

def table (lin : List Num) (host : Num → Num) : Table := lin.map fun l => (l, host l)

def lookup : Table → Num → Num
  | [], lin => lin
  | e :: t, lin => if e.1 = lin then e.2 else lookup t lin

def lookupToLinux : Table → Num → Num
  | [], host => host
  | e :: t, host => if e.2 = host then e.1 else lookupToLinux t host

namespace Consts

def kSo (h : Consts) : Table := table linSo h.so
def kTcp (h : Consts) : Table := table linTcp h.tcp
def kIp (h : Consts) : Table := table linIp h.ip
def kIpv6 (h : Consts) : Table := table linIpv6 h.ipv6

/-- `sockopt_to_host`. -/
def sockoptToHost (h : Consts) (level name : Num) : Num × Num :=
  if level = linSolSocket then (h.solSocket, lookup h.kSo name)
  else if level = linIpprotoTcp then (level, lookup h.kTcp name)
  else if level = linIpprotoIp then (level, lookup h.kIp name)
  else if level = linIpprotoIpv6 then (level, lookup h.kIpv6 name)
  else (level, name)

end Consts

/-! ## Looking up and back -/

theorem lookup_of_notMem {lin : List Num} {host : Num → Num} {x : Num} (h : x ∉ lin) :
    lookup (table lin host) x = x := by
  induction lin with
  | nil => rfl
  | cons l lin ih =>
    simp only [List.mem_cons, not_or] at h
    simp only [table, List.map_cons, lookup, if_neg (Ne.symm h.1)]
    exact ih h.2

theorem lookup_of_mem {lin : List Num} {host : Num → Num} {x : Num} (h : x ∈ lin) :
    lookup (table lin host) x = host x := by
  induction lin with
  | nil => cases h
  | cons l lin ih =>
    simp only [table, List.map_cons, lookup]
    split
    · rename_i he
      rw [he]
    · rename_i hne
      rcases List.mem_cons.mp h with rfl | h
      · exact absurd rfl hne
      · exact ih h

theorem lookupToLinux_cases (lin : List Num) (host : Num → Num) (y : Num) :
    (∃ l ∈ lin, host l = y ∧ lookupToLinux (table lin host) y = l) ∨
    ((∀ l ∈ lin, host l ≠ y) ∧ lookupToLinux (table lin host) y = y) := by
  induction lin with
  | nil => exact Or.inr ⟨by simp, rfl⟩
  | cons l lin ih =>
    simp only [table, List.map_cons, lookupToLinux]
    split
    · rename_i he
      exact Or.inl ⟨l, by simp, he, rfl⟩
    · rename_i hne
      rcases ih with ⟨l', hl', h₁, h₂⟩ | ⟨h₁, h₂⟩
      · exact Or.inl ⟨l', by simp [hl'], h₁, h₂⟩
      · refine Or.inr ⟨?_, h₂⟩
        intro l' hl'
        rcases List.mem_cons.mp hl' with rfl | hl'
        · exact hne
        · exact h₁ l' hl'

/-- The way back undoes the way out, on a table that sends no row to where `x` goes. -/
theorem lookupToLinux_lookup {lin : List Num} {host : Num → Num} {used : Set Num} {x : Num}
    (hx : x ∈ used) (hinj : Set.InjOn (lookup (table lin host)) ({l | l ∈ lin} ∪ used)) :
    lookupToLinux (table lin host) (lookup (table lin host) x) = x := by
  rcases lookupToLinux_cases lin host (lookup (table lin host) x) with ⟨l, hl, he, hr⟩ | ⟨hn, hr⟩
  · rw [hr]
    have : lookup (table lin host) l = lookup (table lin host) x := by
      rw [lookup_of_mem hl, he]
    exact hinj (Or.inl hl) (Or.inr hx) this
  · rw [hr]
    refine lookup_of_notMem fun hmem => hn x hmem ?_
    rw [lookup_of_mem hmem]

end ApeShim.Socket
