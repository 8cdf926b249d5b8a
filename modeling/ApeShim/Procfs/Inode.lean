import Mathlib.Data.List.Basic
import ApeShim.Lib.Bytes

/-!
A socket's inode (`procfs/net.c`): the hash of what identifies it, made once for a row
of `/proc/net` out of the owner tables and once for a link of `/proc/self/fd` out of the
descriptor (`procfs/fd.c`).
-/

namespace ApeShim.Procfs
open Bytes

/-! ## The hash -/

abbrev Bytes16 := Vector UInt8 16

def zero16 : Bytes16 := Vector.replicate 16 0

def fnv (p : List UInt8) (h : UInt64) : UInt64 :=
  p.foldl (fun h b => (h ^^^ b.toUInt64) * 0x100000001b3) h

/-- What `pfs_net_inode` takes; ports are in host order. -/
structure Identity where
  proto : UInt8
  family : UInt8
  pid : UInt32
  lport : UInt16
  rport : UInt16
  laddr : Bytes16
  raddr : Bytes16
  deriving DecidableEq

def pfsNetInode (i : Identity) : UInt64 :=
  let h := fnv [i.proto] 0xcbf29ce484222325
  let h := fnv [i.family] h
  let h := fnv (le 4 i.pid.toNat) h
  let h := fnv (le 2 i.lport.toNat) h
  let h := fnv (le 2 i.rport.toNat) h
  let h := fnv i.laddr.toList h
  let h := fnv i.raddr.toList h
  let h := h &&& 0x7fffffffffff
  if h = 0 then 1 else h

/-- Two identities the hash cannot tell apart. -/
def Collides (i j : Identity) : Prop := i ≠ j ∧ pfsNetInode i = pfsNetInode j

instance (i j : Identity) : Decidable (Collides i j) :=
  inferInstanceAs (Decidable (i ≠ j ∧ pfsNetInode i = pfsNetInode j))

theorem inode_eq_iff (i j : Identity) :
    pfsNetInode i = pfsNetInode j ↔ i = j ∨ Collides i j := by
  constructor
  · intro h
    by_cases hij : i = j
    · exact .inl hij
    · exact .inr ⟨hij, h⟩
  · rintro (rfl | ⟨_, h⟩)
    · rfl
    · exact h

/-! ## Addresses -/

inductive Family
  | inet
  | inet6
  deriving DecidableEq

namespace Family

def code : Family → UInt8
  | inet => 4
  | inet6 => 6

abbrev size : Family → Nat
  | inet => 4
  | inet6 => 16

end Family

abbrev Addr (f : Family) := Vector UInt8 f.size

/-- The address copied to the front of sixteen zero bytes. -/
def Addr.bytes : {f : Family} → Addr f → Bytes16
  | .inet, a => a ++ (Vector.replicate 12 0 : Vector UInt8 12)
  | .inet6, a => a

def Addr.zero (f : Family) : Addr f := Vector.replicate f.size 0

@[simp] theorem Addr.bytes_zero (f : Family) : (Addr.zero f).bytes = zero16 := by
  cases f <;> decide

theorem Addr.bytes_inj {f : Family} (a b : Addr f) : a.bytes = b.bytes ↔ a = b := by
  constructor
  · intro h
    cases f with
    | inet => exact (Vector.append_inj_left h : a = b)
    | inet6 => exact h
  · rintro rfl
    rfl

/-- `__builtin_bswap16`, which `ntohs` is on a little-endian machine. -/
def bswap16 (x : UInt16) : UInt16 := x <<< 8 ||| x >>> 8

@[simp] theorem bswap16_bswap16 (x : UInt16) : bswap16 (bswap16 x) = x := by
  apply UInt16.eq_of_toBitVec_eq
  ext i hi
  simp [bswap16]
  grind

@[simp] theorem bswap16_zero : bswap16 0 = 0 := by decide

/-- A socket address, its port in network order. -/
inductive Sockaddr
  | inet (f : Family) (port : UInt16) (addr : Addr f)
  | other

/-- The port and the address one of the two calls leaves in the zeroed locals. -/
def endOf : Option Sockaddr → UInt16 × Bytes16
  | some (.inet _ port addr) => (bswap16 port, addr.bytes)
  | _ => (0, zero16)

/-- Both ends of an inet socket, ports in host order; an unbound end is all zeros. -/
structure Ends (f : Family) where
  laddr : Addr f
  lport : UInt16
  peer : Option (Addr f × UInt16)
  deriving DecidableEq

namespace Ends

variable {f : Family}

/-- The remote end, an unconnected one being all zeros. -/
def remote (e : Ends f) : Addr f × UInt16 := e.peer.getD (Addr.zero f, 0)

def sockname (e : Ends f) : Option Sockaddr := some (.inet f (bswap16 e.lport) e.laddr)

def peername (e : Ends f) : Option Sockaddr :=
  e.peer.map fun p => .inet f (bswap16 p.2) p.1

@[simp] theorem endOf_sockname (e : Ends f) : endOf e.sockname = (e.lport, e.laddr.bytes) := by
  simp [sockname, endOf]

@[simp] theorem endOf_peername (e : Ends f) :
    endOf e.peername = (e.remote.2, e.remote.1.bytes) := by
  cases hp : e.peer with
  | none => simp [peername, remote, endOf, hp]
  | some p => simp [peername, remote, endOf, hp]

end Ends

end ApeShim.Procfs
