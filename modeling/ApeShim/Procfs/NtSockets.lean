import ApeShim.Procfs.Inode

/-!
NT's owner tables read into rows (`procfs/net.c`), beside the links of the process's own
sockets (`procfs/fd.c`). The two hash the same identity but for the peer of a connected
datagram socket, which the tables do not have.
-/

namespace ApeShim.Procfs

/-! ## The owner tables -/

def maxRows : Nat := 4096

/-- `MIB_TCP_STATE` in the kernel's numbering. -/
def tcpStateToLinux (nt : UInt32) : UInt8 :=
  match nt.toNat with
  | 2 => 0x0a
  | 3 => 0x02
  | 4 => 0x03
  | 5 => 0x01
  | 6 => 0x04
  | 7 => 0x05
  | 8 => 0x08
  | 9 => 0x0b
  | 10 => 0x09
  | 11 => 0x06
  | _ => 0x07

def ntPort (p : UInt32) : UInt16 :=
  (((p &&& 0xff) <<< 8) ||| ((p >>> 8) &&& 0xff)).toUInt16

/-- Only the low half of a table's port is read. -/
theorem ntPort_eq (p : UInt32) : ntPort p = bswap16 p.toUInt16 := by
  have hmask : ∀ j (hj : j < 16), (255#16)[j] = decide (j < 8) := by decide
  apply UInt16.eq_of_toBitVec_eq
  ext i hi
  simp [ntPort, bswap16]
  grind

/-- `struct nt_tcp4` and `struct nt_tcp6`; ports are in network order in the low half. -/
structure NtTcp (f : Family) where
  state : UInt32
  laddr : Addr f
  lport : UInt32
  raddr : Addr f
  rport : UInt32
  pid : UInt32

/-- `struct nt_udp4` and `struct nt_udp6`. -/
structure NtUdp (f : Family) where
  laddr : Addr f
  lport : UInt32
  pid : UInt32

/-- What the four fetches of a refresh return, `none` for one that fails. -/
structure NtTables where
  tcp : (f : Family) → Option (List (NtTcp f))
  udp : (f : Family) → Option (List (NtUdp f))

structure Row extends Identity where
  state : UInt8
  inode : UInt64
  deriving DecidableEq

/-- The row `add_row` fills. -/
def row (i : Identity) (state : UInt8) : Row :=
  { i with state := state, inode := pfsNetInode i }

def addRow (rows : List Row) (r : Row) : List Row :=
  if maxRows ≤ rows.length then rows else rows ++ [r]

def NtTcp.row {f : Family} (e : NtTcp f) : Row :=
  Procfs.row ⟨0, f.code, e.pid, ntPort e.lport, ntPort e.rport, e.laddr.bytes, e.raddr.bytes⟩
    (tcpStateToLinux e.state)

def NtUdp.row {f : Family} (e : NtUdp f) : Row :=
  Procfs.row ⟨1, f.code, e.pid, ntPort e.lport, 0, e.laddr.bytes, zero16⟩ 0x07

def addTable {α : Type} (row : α → Row) (rows : List Row) : Option (List α) → List Row
  | none => rows
  | some es => es.foldl (fun rows e => addRow rows (row e)) rows

/-- `net_refresh_locked`, when the snapshot is due. -/
def netRefresh (t : NtTables) : List Row :=
  let rows := addTable NtTcp.row [] (t.tcp .inet)
  let rows := addTable NtTcp.row rows (t.tcp .inet6)
  let rows := addTable NtUdp.row rows (t.udp .inet)
  addTable NtUdp.row rows (t.udp .inet6)

/-! ## What a refresh keeps -/

/-- The row is among those kept, or there was no room for it. -/
def Collected (rows : List Row) (r : Row) : Prop := r ∈ rows ∨ rows.length = maxRows

theorem addRow_length_le {rows : List Row} (r : Row) (h : rows.length ≤ maxRows) :
    (addRow rows r).length ≤ maxRows := by
  unfold addRow
  split
  · exact h
  · next hroom =>
    rw [List.length_append, List.length_singleton]
    omega

theorem addRow_collected {rows : List Row} (r : Row) (h : rows.length ≤ maxRows) :
    Collected (addRow rows r) r := by
  unfold addRow
  split
  · next hfull => exact .inr (by omega)
  · exact .inl (by simp)

theorem Collected.addRow {rows : List Row} {r : Row} (h : Collected rows r) (s : Row) :
    Collected (addRow rows s) r := by
  unfold Procfs.addRow
  split
  · exact h
  · next hroom =>
    rcases h with hmem | hfull
    · exact .inl (List.mem_append_left _ hmem)
    · omega

section Tables

variable {α : Type} {row : α → Row}

theorem Collected.addTable {rows : List Row} {r : Row} (h : Collected rows r) (t : Option (List α)) :
    Collected (addTable row rows t) r := by
  cases t with
  | none => exact h
  | some es =>
    simp only [Procfs.addTable]
    induction es generalizing rows with
    | nil => exact h
    | cons e es ih => exact ih (h.addRow (row e))

theorem addTable_length_le {rows : List Row} (t : Option (List α))
    (h : rows.length ≤ maxRows) : (addTable row rows t).length ≤ maxRows := by
  cases t with
  | none => exact h
  | some es =>
    simp only [addTable]
    induction es generalizing rows with
    | nil => exact h
    | cons e es ih => exact ih (addRow_length_le (row e) h)

theorem addTable_collected {rows : List Row} {es : List α} {e : α} (he : e ∈ es)
    (h : rows.length ≤ maxRows) : Collected (addTable row rows (some es)) (row e) := by
  simp only [addTable]
  induction es generalizing rows with
  | nil => simp at he
  | cons d es ih =>
    rcases List.mem_cons.mp he with rfl | hes
    · exact (addRow_collected (row e) h).addTable (some es)
    · exact ih hes (addRow_length_le (row d) h)

end Tables

theorem netRefresh_tcp {t : NtTables} {f : Family} {es : List (NtTcp f)} {e : NtTcp f}
    (ht : t.tcp f = some es) (he : e ∈ es) : Collected (netRefresh t) e.row := by
  unfold netRefresh
  cases f with
  | inet =>
    rw [ht]
    have h : Collected (addTable NtTcp.row [] (some es)) e.row := addTable_collected he (Nat.zero_le _)
    exact ((h.addTable _).addTable _).addTable _
  | inet6 =>
    rw [ht]
    have h4 : (addTable NtTcp.row [] (t.tcp .inet)).length ≤ maxRows :=
      addTable_length_le _ (Nat.zero_le _)
    exact ((addTable_collected he h4).addTable _).addTable _

theorem netRefresh_udp {t : NtTables} {f : Family} {es : List (NtUdp f)} {e : NtUdp f}
    (ht : t.udp f = some es) (he : e ∈ es) : Collected (netRefresh t) e.row := by
  unfold netRefresh
  have h4 : (addTable NtTcp.row [] (t.tcp .inet)).length ≤ maxRows :=
    addTable_length_le _ (Nat.zero_le _)
  have h6 : (addTable NtTcp.row (addTable NtTcp.row [] (t.tcp .inet)) (t.tcp .inet6)).length ≤
      maxRows := addTable_length_le _ h4
  cases f with
  | inet =>
    rw [ht]
    exact (addTable_collected he h6).addTable _
  | inet6 =>
    rw [ht]
    exact addTable_collected he (addTable_length_le (t.udp .inet) h6)

/-! ## The process's own sockets -/

def AF_INET6 : Nat := 10
def SOCK_DGRAM : Nat := 2

/-- What cosmo's descriptor table says of a socket. -/
structure Fd where
  family : Nat
  type : Nat

/-- What `socket_text` hashes. -/
def socketIdentity (fd : Fd) (sockname peername : Option Sockaddr) (selfPid : UInt32) :
    Identity :=
  let l := endOf sockname
  let r := endOf peername
  { proto := if fd.type = SOCK_DGRAM then 1 else 0
    family := if fd.family = AF_INET6 then 6 else 4
    pid := selfPid
    lport := l.1
    rport := r.1
    laddr := l.2
    raddr := r.2 }

/-- `socket_text`: the number it puts between the brackets. -/
def socketText (fd : Fd) (sockname peername : Option Sockaddr) (selfPid : UInt32) : UInt64 :=
  pfsNetInode (socketIdentity fd sockname peername selfPid)

/-- A TCP or UDP socket of the process. -/
structure InetSocket where
  dgram : Bool
  family : Family
  ends : Ends family

namespace InetSocket

def fd (s : InetSocket) : Fd :=
  { family := match s.family with | .inet => 2 | .inet6 => AF_INET6
    type := if s.dgram then SOCK_DGRAM else 1 }

/-- Its identity with both ends. -/
def identity (s : InetSocket) (pid : UInt32) : Identity :=
  ⟨if s.dgram then 1 else 0, s.family.code, pid, s.ends.lport, s.ends.remote.2,
    s.ends.laddr.bytes, s.ends.remote.1.bytes⟩

/-- Its identity without the remote end. -/
def localIdentity (s : InetSocket) (pid : UInt32) : Identity :=
  { s.identity pid with rport := 0, raddr := zero16 }

/-- A datagram socket that has been connected. -/
def UdpPeer (s : InetSocket) : Prop :=
  s.dgram = true ∧ s.ends.remote ≠ (Addr.zero s.family, 0)

end InetSocket

theorem socketIdentity_self (s : InetSocket) (pid : UInt32) :
    socketIdentity s.fd s.ends.sockname s.ends.peername pid = s.identity pid := by
  obtain ⟨dgram, family, ends⟩ := s
  cases dgram <;> cases family <;>
    simp [socketIdentity, InetSocket.identity, InetSocket.fd, AF_INET6, SOCK_DGRAM, Family.code]

/-- The owner tables list a socket under its local end and its owner, and a TCP one under
its remote end too, in the entry a row was made of. -/
inductive NtTables.Lists (t : NtTables) (pid : UInt32) : InetSocket → Row → Prop
  | tcp {f : Family} {s : Ends f} {es : List (NtTcp f)} {e : NtTcp f} (ht : t.tcp f = some es)
      (he : e ∈ es) (hpid : e.pid = pid) (hl : e.laddr = s.laddr)
      (hlp : e.lport.toUInt16 = bswap16 s.lport) (hr : e.raddr = s.remote.1)
      (hrp : e.rport.toUInt16 = bswap16 s.remote.2) : t.Lists pid ⟨false, f, s⟩ e.row
  | udp {f : Family} {s : Ends f} {es : List (NtUdp f)} {e : NtUdp f} (ht : t.udp f = some es)
      (he : e ∈ es) (hpid : e.pid = pid) (hl : e.laddr = s.laddr)
      (hlp : e.lport.toUInt16 = bswap16 s.lport) : t.Lists pid ⟨true, f, s⟩ e.row

theorem NtTables.Lists.kept {t : NtTables} {pid : UInt32} {s : InetSocket} {r : Row}
    (h : t.Lists pid s r) : Collected (netRefresh t) r := by
  cases h with
  | tcp ht he => exact netRefresh_tcp ht he
  | udp ht he => exact netRefresh_udp ht he

/-- The row of a stream socket hashes both ends, that of a datagram socket the local one. -/
theorem NtTables.Lists.inode {t : NtTables} {pid : UInt32} {s : InetSocket} {r : Row}
    (h : t.Lists pid s r) :
    r.inode = pfsNetInode (if s.dgram then s.localIdentity pid else s.identity pid) := by
  cases h with
  | tcp ht he hpid hl hlp hr hrp =>
    simp [NtTcp.row, row, InetSocket.identity, ntPort_eq, hpid, hl, hlp, hr, hrp]
  | udp ht he hpid hl hlp =>
    simp [NtUdp.row, row, InetSocket.localIdentity, InetSocket.identity, ntPort_eq, hpid, hl, hlp]

/-- The remote end is lost from an identity exactly when there is one. -/
theorem identity_eq_local_iff (s : InetSocket) (pid : UInt32) :
    s.identity pid = s.localIdentity pid ↔
      s.ends.remote = (Addr.zero s.family, 0) := by
  have hz : zero16 = (Addr.zero s.family).bytes := (Addr.bytes_zero s.family).symm
  rw [Prod.ext_iff, ← Addr.bytes_inj, ← hz]
  simp only [InetSocket.localIdentity, InetSocket.identity, Identity.mk.injEq, true_and]
  exact And.comm

/-- A socket's link and its row carry one inode exactly when the socket is not a datagram
socket with a peer, or the peer's bytes happen to hash as zeros do. The row is there as
long as the snapshot has room. -/
theorem socket_join_iff {t : NtTables} {pid : UInt32} {s : InetSocket} {r : Row}
    (h : t.Lists pid s r) :
    Collected (netRefresh t) r ∧
      (socketText s.fd s.ends.sockname s.ends.peername pid = r.inode ↔
        ¬ s.UdpPeer ∨ Collides (s.identity pid) (s.localIdentity pid)) := by
  refine ⟨h.kept, ?_⟩
  rw [socketText, socketIdentity_self, h.inode]
  cases hd : s.dgram with
  | false => simp [InetSocket.UdpPeer, hd]
  | true =>
    rw [if_pos rfl, inode_eq_iff, identity_eq_local_iff]
    simp [InetSocket.UdpPeer, hd]

/-! ## A resolver's socket -/

def loopback : Addr .inet := #v[127, 0, 0, 1]

/-- Bound to port 40000 and connected to port 53. -/
def resolverEnds : Ends .inet := ⟨loopback, 40000, some (loopback, 53)⟩

def resolverSocket : InetSocket := ⟨true, .inet, resolverEnds⟩

def resolverEntry : NtUdp .inet := ⟨loopback, (bswap16 40000).toUInt32, 7⟩

def resolverTables : NtTables where
  tcp _ := some []
  udp
    | .inet => some [resolverEntry]
    | .inet6 => some []

theorem resolverTables_lists : resolverTables.Lists 7 resolverSocket resolverEntry.row :=
  .udp rfl (List.mem_singleton.mpr rfl) rfl rfl (by decide)

theorem resolver_join :
    Collected (netRefresh resolverTables) resolverEntry.row ∧
      (socketText resolverSocket.fd resolverEnds.sockname resolverEnds.peername 7 =
          resolverEntry.row.inode ↔
        ¬ resolverSocket.UdpPeer ∨
          Collides (resolverSocket.identity 7) (resolverSocket.localIdentity 7)) :=
  socket_join_iff resolverTables_lists

/-- The link of a connected datagram socket leads to no row. -/
theorem resolver_not_joined :
    ¬ ∀ (t : NtTables) (pid : UInt32) (s : InetSocket) (r : Row), t.Lists pid s r →
      socketText s.fd s.ends.sockname s.ends.peername pid = r.inode := by
  intro h
  have hjoin := h resolverTables 7 resolverSocket resolverEntry.row resolverTables_lists
  revert hjoin
  decide +kernel

end ApeShim.Procfs
