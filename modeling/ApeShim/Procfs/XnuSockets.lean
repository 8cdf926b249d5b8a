import ApeShim.Procfs.Inode

/-!
Sockets on Apple Silicon (`procfs/xnu.c`, `procfs/xnuapi.c`). A socket is told of three
ways: by its record in the list of control blocks, by the kernel's answer about one
descriptor, and by the two calls that name its ends. Each way has its own path to the hash.
-/

namespace ApeShim.Procfs

def XNU_SOCK_DGRAM : Nat := 2
def XNU_SOCKINFO_IN : Int := 1
def XNU_SOCKINFO_TCP : Int := 2

/-! ## The list of control blocks -/

/-- An address field: sixteen bytes, a four-byte address in the last of them. -/
structure InAddr where
  pad : Vector UInt8 12
  addr4 : Addr .inet

def InAddr.a6 (u : InAddr) : Addr .inet6 := u.pad ++ u.addr4

/-- The part a record and an answer have in common; ports are in network order. -/
structure Pcb where
  fport : UInt16
  lport : UInt16
  vflag : UInt8
  faddr : InAddr
  laddr : InAddr

def Pcb.isV6 (p : Pcb) : Bool := p.vflag &&& 2 != 0

/-- The hash input both readers make of a control block, with no owner. -/
def Pcb.identity (p : Pcb) (proto : UInt8) : Identity :=
  { proto := proto
    family := if p.isV6 then 6 else 4
    pid := 0
    lport := bswap16 p.lport
    rport := bswap16 p.fport
    laddr := if p.isV6 then p.laddr.a6.bytes else p.laddr.addr4.bytes
    raddr := if p.isV6 then p.faddr.a6.bytes else p.faddr.addr4.bytes }

/-- `struct xnu_xinpcb64`, with the state that follows it in a TCP record. -/
structure Xinpcb extends Pcb where
  tState : Int
  sndCc : UInt32
  rcvCc : UInt32
  uid : UInt32

def tcpStates : List Nat := [7, 10, 2, 3, 1, 8, 4, 11, 9, 5, 6]

def tcpStateOf (tState : Int) : Nat :=
  if 0 ≤ tState ∧ tState < 11 then tcpStates.getD tState.toNat 7 else 7

/-- A line of `/proc/net`. -/
structure XnuRow extends Identity where
  state : Nat
  sndCc : UInt32
  rcvCc : UInt32
  uid : UInt32
  inode : UInt64

/-- One turn of the loop in `net_table`. -/
def netRow (tcp v6 : Bool) (p : Xinpcb) : Option XnuRow :=
  if p.isV6 ≠ v6 then none
  else
    let i := p.identity (if tcp then 0 else 1)
    some { i with
      state := if tcp then tcpStateOf p.tState else 7
      sndCc := p.sndCc
      rcvCc := p.rcvCc
      uid := p.uid
      inode := pfsNetInode i }

/-- `net_table`, of the records its list holds. -/
def netTable (tcp v6 : Bool) (pcblist : Option (List Xinpcb)) : List XnuRow :=
  (pcblist.getD []).filterMap (netRow tcp v6)

theorem netRow_inode {tcp v6 : Bool} {p : Xinpcb} {r : XnuRow} (h : netRow tcp v6 p = some r) :
    r.inode = pfsNetInode (p.identity (if tcp then 0 else 1)) := by
  unfold netRow at h
  split at h
  · cases h
  · cases h
    rfl

/-! ## The two links -/

/-- The socket part of the kernel's answer about a descriptor; a port is in the low half. -/
structure SocketFdinfo where
  kind : Int
  type : Nat
  fport : UInt32
  lport : UInt32
  vflag : UInt8
  faddr : InAddr
  laddr : InAddr

def SocketFdinfo.pcb (s : SocketFdinfo) : Pcb :=
  ⟨s.fport.toUInt16, s.lport.toUInt16, s.vflag, s.faddr, s.laddr⟩

/-- `pfs_xnu_fdsock`; `none` is an answer that was refused or came short. -/
def pfsXnuFdsock (answer : Option SocketFdinfo) : Option Identity :=
  answer.bind fun s =>
    if s.kind ≠ XNU_SOCKINFO_IN ∧ s.kind ≠ XNU_SOCKINFO_TCP then none
    else some (s.pcb.identity (if s.type = XNU_SOCK_DGRAM then 1 else 0))

/-- The number for a descriptor with no identity, `(uint64_t)pid << 20 | (uint32_t)fd`. -/
def fdNumber (pid fd : UInt32) : UInt64 := pid.toUInt64 <<< 20 ||| fd.toUInt64

/-- `other_socket_text`: the number it puts between the brackets. -/
def otherSocketText (pid fd : UInt32) (answer : Option SocketFdinfo) : UInt64 :=
  match pfsXnuFdsock answer with
  | some i => pfsNetInode i
  | none => fdNumber pid fd

/-- What `xnu_socket_text` hashes; the local name alone decides the family. -/
def xnuSocketIdentity (sockname peername : Option Sockaddr) (type : Nat) : Identity :=
  let l := endOf sockname
  let r := endOf peername
  { proto := if type = XNU_SOCK_DGRAM then 1 else 0
    family := match sockname with
      | some (.inet .inet6 _ _) => 6
      | _ => 4
    pid := 0
    lport := l.1
    rport := r.1
    laddr := l.2
    raddr := r.2 }

/-- `xnu_socket_text`: the number it puts between the brackets. -/
def xnuSocketText (sockname peername : Option Sockaddr) (type : Nat) : UInt64 :=
  pfsNetInode (xnuSocketIdentity sockname peername type)

/-! ## Sockets -/

/-- How an inet socket holds its ends. -/
inductive Form
  | own (f : Family) (ends : Ends f)
  /-- an IPv6 socket over IPv4 -/
  | mapped (ends : Ends .inet)

/-- `::ffff:a.b.c.d` -/
def mappedAddr (a : Addr .inet) : Addr .inet6 :=
  (#v[0, 0, 0, 0, 0, 0, 0, 0, 0, 0, 0xff, 0xff] : Vector UInt8 12) ++ a

def mappedEnds (e : Ends .inet) : Ends .inet6 :=
  ⟨mappedAddr e.laddr, e.lport, e.peer.map fun p => (mappedAddr p.1, p.2)⟩

/-- A family and two ends in the form they are hashed. -/
structure View where
  family : Family
  near : UInt16 × Bytes16
  far : UInt16 × Bytes16
  deriving DecidableEq

def Ends.view {f : Family} (e : Ends f) : View :=
  ⟨f, (e.lport, e.laddr.bytes), (e.remote.2, e.remote.1.bytes)⟩

/-- Neither end of an IPv4 socket is set. -/
def View.blank : View := ⟨.inet, (0, zero16), (0, zero16)⟩

def View.identity (v : View) (proto : UInt8) : Identity :=
  ⟨proto, v.family.code, 0, v.near.1, v.far.1, v.near.2, v.far.2⟩

theorem View.identity_inj {v w : View} {i j : UInt8} :
    v.identity i = w.identity j ↔ i = j ∧ v = w := by
  obtain ⟨vf, vn, vr⟩ := v
  obtain ⟨wf, wn, wr⟩ := w
  have hcode : vf.code = wf.code ↔ vf = wf := by cases vf <;> cases wf <;> decide
  simp only [identity, Identity.mk.injEq, View.mk.injEq, hcode, true_and, Prod.ext_iff]
  tauto

namespace Form

/-- The ends as the kernel's control block keeps them. -/
def stored : Form → View
  | own _ e => e.view
  | mapped e => e.view

/-- The ends as `getsockname` and `getpeername` name them. -/
def named : Form → View
  | own _ e => e.view
  | mapped e => (mappedEnds e).view

def sockname : Form → Option Sockaddr
  | own _ e => e.sockname
  | mapped e => (mappedEnds e).sockname

def peername : Form → Option Sockaddr
  | own _ e => e.peername
  | mapped e => (mappedEnds e).peername

def IsMapped : Form → Prop
  | own _ _ => False
  | mapped _ => True

theorem named_eq_stored_iff (x : Form) : x.named = x.stored ↔ ¬ x.IsMapped := by
  cases x with
  | own f e => simp [named, stored, IsMapped]
  | mapped e => simp [named, stored, IsMapped, Ends.view]

end Form

theorem xnuSocketIdentity_form (x : Form) (type : Nat) :
    xnuSocketIdentity x.sockname x.peername type =
      x.named.identity (if type = XNU_SOCK_DGRAM then 1 else 0) := by
  have hends : ∀ {f : Family} (e : Ends f), xnuSocketIdentity e.sockname e.peername type =
      e.view.identity (if type = XNU_SOCK_DGRAM then 1 else 0) := by
    intro f e
    simp only [xnuSocketIdentity, Ends.endOf_sockname, Ends.endOf_peername, View.identity, Ends.view]
    cases f <;> rfl
  cases x with
  | own f e => exact hends e
  | mapped e => exact hends (mappedEnds e)

/-- A control block keeps these ends: the flag says the family, and an address of the
other family's width is whatever it is. -/
def Pcb.Keeps {f : Family} (p : Pcb) (e : Ends f) : Prop :=
  bswap16 p.lport = e.lport ∧ bswap16 p.fport = e.remote.2 ∧
    match f, e with
    | .inet, e => p.isV6 = false ∧ p.laddr.addr4 = e.laddr ∧ p.faddr.addr4 = e.remote.1
    | .inet6, e => p.isV6 = true ∧ p.laddr.a6 = e.laddr ∧ p.faddr.a6 = e.remote.1

def Pcb.KeepsForm (p : Pcb) : Form → Prop
  | .own _ e => p.Keeps e
  | .mapped e => p.Keeps e

theorem Pcb.Keeps.identity {f : Family} {p : Pcb} {e : Ends f} (h : p.Keeps e) (proto : UInt8) :
    p.identity proto = e.view.identity proto := by
  obtain ⟨hl, hr, hrest⟩ := h
  cases f with
  | inet =>
    obtain ⟨hv, hla, hra⟩ := hrest
    simp [Pcb.identity, Ends.view, View.identity, hl, hr, hv, hla, hra, Family.code]
  | inet6 =>
    obtain ⟨hv, hla, hra⟩ := hrest
    simp [Pcb.identity, Ends.view, View.identity, hl, hr, hv, hla, hra, Family.code]

theorem Pcb.KeepsForm.identity {p : Pcb} {x : Form} (h : p.KeepsForm x) (proto : UInt8) :
    p.identity proto = x.stored.identity proto := by
  cases x with
  | own f e => exact Pcb.Keeps.identity h proto
  | mapped e => exact Pcb.Keeps.identity h proto

/-- A socket, by what can be known of it. -/
inductive XnuSocket
  /-- TCP or UDP -/
  | listed (dgram : Bool) (form : Form)
  /-- an inet socket of another protocol, in neither list -/
  | unlisted (type : Nat) (form : Form)
  /-- not an inet socket -/
  | other (type : Nat)

namespace XnuSocket

def type : XnuSocket → Nat
  | listed dgram _ => if dgram then XNU_SOCK_DGRAM else 1
  | unlisted type _ => type
  | other type => type

def proto (s : XnuSocket) : UInt8 := if s.type = XNU_SOCK_DGRAM then 1 else 0

def form? : XnuSocket → Option Form
  | listed _ x => some x
  | unlisted _ x => some x
  | other _ => none

/-- The ends the two calls name, none for a socket with no inet address. -/
def named (s : XnuSocket) : View :=
  match s.form? with
  | some x => x.named
  | none => View.blank

theorem proto_listed (dgram : Bool) (x : Form) :
    (listed dgram x).proto = if !dgram then 0 else 1 := by
  cases dgram <;> rfl

end XnuSocket

def NotInet (name : Option Sockaddr) : Prop := name = none ∨ name = some .other

/-- A descriptor for a socket, with what the kernel says of it in each of the three ways. -/
structure XnuFd where
  pid : UInt32
  fd : UInt32
  socket : XnuSocket
  /-- its record, and whether that is in the TCP list or in the UDP one -/
  record : Option (Bool × Xinpcb)
  answer : Option SocketFdinfo
  sockname : Option Sockaddr
  peername : Option Sockaddr
  recordSays : match socket with
    | .listed dgram x => ∃ p, record = some (!dgram, p) ∧ p.KeepsForm x
    | _ => record = none
  answerSays : match socket.form? with
    | some x => ∃ s, answer = some s ∧ (s.kind = XNU_SOCKINFO_IN ∨ s.kind = XNU_SOCKINFO_TCP) ∧
        s.type = socket.type ∧ s.pcb.KeepsForm x
    | none => ∀ s, answer = some s → s.kind ≠ XNU_SOCKINFO_IN ∧ s.kind ≠ XNU_SOCKINFO_TCP
  namesSay : match socket.form? with
    | some x => sockname = x.sockname ∧ peername = x.peername
    | none => NotInet sockname ∧ NotInet peername

namespace XnuFd

/-- The number in the link, in the socket arm of `pfs_xnu_fds_of`. -/
def link (selfPid : UInt32) (d : XnuFd) : UInt64 :=
  if d.pid = selfPid then xnuSocketText d.sockname d.peername d.socket.type
  else otherSocketText d.pid d.fd d.answer

/-- The row its record is printed as, in the table of that protocol and family. -/
def PrintedIn (d : XnuFd) (tcp v6 : Bool) (r : XnuRow) : Prop :=
  ∃ p, d.record = some (tcp, p) ∧ netRow tcp v6 p = some r

/-- What the link hashes, when it is a hash. -/
def hashed (selfPid : UInt32) (d : XnuFd) : Option Identity :=
  if d.pid = selfPid then some (d.socket.named.identity d.socket.proto)
  else d.socket.form?.map fun x => x.stored.identity d.socket.proto

theorem link_self {selfPid : UInt32} {d : XnuFd} (h : d.pid = selfPid) :
    d.link selfPid = pfsNetInode (d.socket.named.identity d.socket.proto) := by
  have hn := d.namesSay
  rw [link, if_pos h, xnuSocketText]
  cases hx : d.socket.form? with
  | some x =>
    rw [hx] at hn
    rw [hn.1, hn.2, xnuSocketIdentity_form]
    simp [XnuSocket.named, hx, XnuSocket.proto]
  | none =>
    rw [hx] at hn
    obtain ⟨hs, hp⟩ := hn
    congr 1
    rcases hs with hs | hs <;> rcases hp with hp | hp <;>
      simp [hs, hp, xnuSocketIdentity, endOf, XnuSocket.named, hx, View.identity, View.blank,
        XnuSocket.proto, Family.code]

theorem link_other {selfPid : UInt32} {d : XnuFd} (h : d.pid ≠ selfPid) :
    d.link selfPid = match d.socket.form? with
      | some x => pfsNetInode (x.stored.identity d.socket.proto)
      | none => fdNumber d.pid d.fd := by
  have ha := d.answerSays
  rw [link, if_neg h, otherSocketText]
  cases hx : d.socket.form? with
  | some x =>
    rw [hx] at ha
    obtain ⟨s, hs, hkind, htype, hkeeps⟩ := ha
    have hid : pfsXnuFdsock d.answer = some (x.stored.identity d.socket.proto) := by
      rw [hs, pfsXnuFdsock, Option.bind_some, if_neg (by tauto), htype, hkeeps.identity]
      rfl
    rw [hid]
  | none =>
    rw [hx] at ha
    have hid : pfsXnuFdsock d.answer = none := by
      cases hans : d.answer with
      | none => rfl
      | some s => rw [pfsXnuFdsock, Option.bind_some, if_pos (ha s hans)]
    rw [hid]

theorem link_eq (selfPid : UInt32) (d : XnuFd) :
    d.link selfPid = match d.hashed selfPid with
      | some i => pfsNetInode i
      | none => fdNumber d.pid d.fd := by
  unfold hashed
  split_ifs with h
  · exact link_self h
  · rw [link_other h]
    cases d.socket.form? <;> rfl

theorem not_printedIn {d : XnuFd} (h : ∀ dgram x, d.socket ≠ .listed dgram x) {tcp v6 : Bool}
    {r : XnuRow} : ¬ d.PrintedIn tcp v6 r := by
  rintro ⟨p, hp, _⟩
  have hrec := d.recordSays
  split at hrec
  · next dgram x hs => exact h dgram x hs
  · rw [hrec] at hp
    cases hp

theorem PrintedIn.inode {d : XnuFd} {dgram : Bool} {x : Form} {tcp v6 : Bool} {r : XnuRow}
    (hs : d.socket = .listed dgram x) (h : d.PrintedIn tcp v6 r) :
    r.inode = pfsNetInode (x.stored.identity d.socket.proto) := by
  obtain ⟨p, hp, hrow⟩ := h
  have hrec := d.recordSays
  rw [hs] at hrec
  obtain ⟨q, hq, hkeeps⟩ := hrec
  obtain ⟨rfl, rfl⟩ : tcp = !dgram ∧ p = q := by
    rw [hp] at hq
    simpa using hq
  rw [netRow_inode hrow, hkeeps.identity, hs, XnuSocket.proto_listed]

/-- A TCP or UDP socket has its row, in one of the four tables. -/
theorem exists_printedIn {d : XnuFd} {dgram : Bool} {x : Form} (hs : d.socket = .listed dgram x) :
    ∃ v6 r, d.PrintedIn (!dgram) v6 r := by
  have hrec := d.recordSays
  rw [hs] at hrec
  obtain ⟨p, hp, _⟩ := hrec
  exact ⟨p.isV6, _, p, hp, if_neg (by simp)⟩

end XnuFd

/-! ## The join -/

/-- The kernel's list of TCP or of UDP control blocks. -/
def pcblist (tcp : Bool) (fds : List XnuFd) : List Xinpcb :=
  fds.filterMap fun d => d.record.bind fun e => if e.1 = tcp then some e.2 else none

theorem mem_netTable_iff {tcp v6 : Bool} {fds : List XnuFd} {r : XnuRow} :
    r ∈ netTable tcp v6 (some (pcblist tcp fds)) ↔ ∃ d ∈ fds, d.PrintedIn tcp v6 r := by
  simp only [netTable, Option.getD_some, pcblist, List.mem_filterMap, XnuFd.PrintedIn,
    Option.bind_eq_some_iff, Option.ite_none_right_eq_some, Option.some.injEq]
  constructor
  · rintro ⟨p, ⟨d, hd, ⟨t, q⟩, hrec, rfl, rfl⟩, hrow⟩
    exact ⟨d, hd, q, hrec, hrow⟩
  · rintro ⟨d, hd, p, hrec, hrow⟩
    exact ⟨p, ⟨d, hd, (tcp, p), hrec, rfl, rfl⟩, hrow⟩

/-- What a reader joining links to rows counts on. -/
def Joined (selfPid : UInt32) (fds : List XnuFd) : Prop :=
  ∀ d ∈ fds,
    (∀ tcp v6 r, d.PrintedIn tcp v6 r → d.link selfPid = r.inode) ∧
    ((∀ tcp v6 r, ¬ d.PrintedIn tcp v6 r) →
      ∀ tcp v6, ∀ r ∈ netTable tcp v6 (some (pcblist tcp fds)), d.link selfPid ≠ r.inode)

/-- A socket with no row reads like a TCP or UDP one: its type gives the same protocol
and its ends are the same ends, a socket with no inet address of the reader's own having
two blank ones. -/
def XnuFd.Alike (selfPid : UInt32) (d : XnuFd) (dgram : Bool) (y : Form) : Prop :=
  d.socket.proto = (if dgram then 1 else 0) ∧
    if d.pid = selfPid then d.socket.named = y.stored
    else ∃ x, d.socket.form? = some x ∧ x.stored = y.stored

/-- Different input, and the same number by chance. -/
def XnuFd.ByChance (selfPid : UInt32) (d : XnuFd) (row : Identity) : Prop :=
  match d.hashed selfPid with
  | some i => Collides i row
  | none => fdNumber d.pid d.fd = pfsNetInode row

theorem link_eq_row_iff (selfPid : UInt32) (d : XnuFd) (dgram : Bool) (y : Form) :
    d.link selfPid = pfsNetInode (y.stored.identity (if dgram then 1 else 0)) ↔
      d.Alike selfPid dgram y ∨
        d.ByChance selfPid (y.stored.identity (if dgram then 1 else 0)) := by
  rw [d.link_eq, XnuFd.Alike, XnuFd.ByChance, XnuFd.hashed]
  by_cases hself : d.pid = selfPid
  · simp only [if_pos hself]
    rw [inode_eq_iff, View.identity_inj]
  · simp only [if_neg hself]
    cases hx : d.socket.form? with
    | none => simp
    | some x =>
      simp only [Option.map_some, Option.some.injEq, exists_eq_left']
      rw [inode_eq_iff, View.identity_inj]

/-- The link of a TCP or UDP socket is its row's inode exactly unless the process looks at
an IPv6 socket of its own that is over IPv4. -/
theorem socket_link_listed_iff (selfPid : UInt32) {d : XnuFd} {dgram : Bool} {x : Form}
    (hs : d.socket = .listed dgram x) :
    d.link selfPid = pfsNetInode (x.stored.identity d.socket.proto) ↔
      ¬ (d.pid = selfPid ∧ x.IsMapped) ∨
        Collides (x.named.identity d.socket.proto) (x.stored.identity d.socket.proto) := by
  by_cases hself : d.pid = selfPid
  · have hn : d.socket.named = x.named := by rw [hs]; rfl
    rw [XnuFd.link_self hself, inode_eq_iff, View.identity_inj, hn, x.named_eq_stored_iff]
    simp [hself]
  · have hx : d.socket.form? = some x := by rw [hs]; rfl
    rw [XnuFd.link_other hself, hx]
    simp [hself]

/-- No socket with a row is an IPv6 socket of the reader over IPv4, and none without a row
reads like one that has a row, but for numbers that meet by chance. -/
def Distinct (selfPid : UInt32) (fds : List XnuFd) : Prop :=
  ∀ d ∈ fds, match d.socket with
    | .listed _ x =>
        ¬ (d.pid = selfPid ∧ x.IsMapped) ∨
          Collides (x.named.identity d.socket.proto) (x.stored.identity d.socket.proto)
    | _ => ∀ t ∈ fds, ∀ dgram y, t.socket = .listed dgram y →
        ¬ d.Alike selfPid dgram y ∧
          ¬ d.ByChance selfPid (y.stored.identity (if dgram then 1 else 0))

theorem proto_of_listed {d : XnuFd} {dgram : Bool} {x : Form} (h : d.socket = .listed dgram x) :
    d.socket.proto = if dgram then 1 else 0 := by
  rw [h, XnuSocket.proto_listed]
  cases dgram <;> rfl

theorem joined_listed_iff (selfPid : UInt32) (fds : List XnuFd) {d : XnuFd} {dgram : Bool}
    {x : Form} (hs : d.socket = .listed dgram x) :
    ((∀ tcp v6 r, d.PrintedIn tcp v6 r → d.link selfPid = r.inode) ∧
      ((∀ tcp v6 r, ¬ d.PrintedIn tcp v6 r) →
        ∀ tcp v6, ∀ r ∈ netTable tcp v6 (some (pcblist tcp fds)), d.link selfPid ≠ r.inode)) ↔
      d.link selfPid = pfsNetInode (x.stored.identity d.socket.proto) := by
  obtain ⟨v6, r, hprint⟩ := XnuFd.exists_printedIn hs
  constructor
  · rintro ⟨hrow, _⟩
    rw [hrow _ v6 r hprint, hprint.inode hs]
  · intro hlink
    refine ⟨fun tcp v6 r h => ?_, fun hnone => absurd hprint (hnone _ v6 r)⟩
    rw [hlink, h.inode hs]

theorem joined_rowless_iff (selfPid : UInt32) (fds : List XnuFd) {d : XnuFd}
    (hs : ∀ dgram x, d.socket ≠ .listed dgram x) :
    ((∀ tcp v6 r, d.PrintedIn tcp v6 r → d.link selfPid = r.inode) ∧
      ((∀ tcp v6 r, ¬ d.PrintedIn tcp v6 r) →
        ∀ tcp v6, ∀ r ∈ netTable tcp v6 (some (pcblist tcp fds)), d.link selfPid ≠ r.inode)) ↔
      ∀ t ∈ fds, ∀ dgram y, t.socket = .listed dgram y →
        d.link selfPid ≠ pfsNetInode (y.stored.identity (if dgram then 1 else 0)) := by
  constructor
  · rintro ⟨_, hrow⟩ t ht dgram y hty
    obtain ⟨v6, r, hprint⟩ := XnuFd.exists_printedIn hty
    have hne := hrow (fun _ _ _ => XnuFd.not_printedIn hs) _ v6 r
      (mem_netTable_iff.mpr ⟨t, ht, hprint⟩)
    rwa [hprint.inode hty, proto_of_listed hty] at hne
  · intro h
    refine ⟨fun _ _ _ hprint => absurd hprint (XnuFd.not_printedIn hs), ?_⟩
    intro _ tcp v6 r hr
    obtain ⟨t, ht, hprint⟩ := mem_netTable_iff.mp hr
    by_cases hlisted : ∃ dgram y, t.socket = .listed dgram y
    · obtain ⟨dgram, y, hty⟩ := hlisted
      rw [hprint.inode hty, proto_of_listed hty]
      exact h t ht dgram y hty
    · push Not at hlisted
      exact absurd hprint (XnuFd.not_printedIn hlisted)

/-- Links and rows join on a host exactly when its sockets are distinct. -/
theorem xnu_joined_iff (selfPid : UInt32) (fds : List XnuFd) :
    Joined selfPid fds ↔ Distinct selfPid fds := by
  refine forall₂_congr fun d _ => ?_
  split
  · next dgram x hs =>
    rw [joined_listed_iff selfPid fds hs, socket_link_listed_iff selfPid hs]
  · next hs =>
    have hrowless : ∀ dgram x, d.socket ≠ .listed dgram x := by
      intro dgram x h
      exact hs dgram x h
    rw [joined_rowless_iff selfPid fds hrowless]
    refine forall₂_congr fun t _ => forall₃_congr fun dgram y _ => ?_
    rw [ne_eq, link_eq_row_iff, not_or]

/-! ## Two hosts that do not join -/

def inAddr4 (a : Addr .inet) : InAddr := ⟨Vector.replicate 12 0, a⟩

/-- A block of an IPv4 connection. -/
def pcb4 (e : Ends .inet) : Pcb :=
  ⟨bswap16 e.remote.2, bswap16 e.lport, 1, inAddr4 e.remote.1, inAddr4 e.laddr⟩

theorem pcb4_keeps (e : Ends .inet) : (pcb4 e).Keeps e := by
  have hv : ((1 : UInt8) &&& 2 != 0) = false := by decide
  exact ⟨bswap16_bswap16 _, bswap16_bswap16 _, hv, rfl, rfl⟩

/-- A TCP socket of process 7 over IPv4. -/
def tcpFd (fd : UInt32) (x : Form) (e : Ends .inet) (hx : ∀ p : Pcb, p.Keeps e → p.KeepsForm x) :
    XnuFd where
  pid := 7
  fd := fd
  socket := .listed false x
  record := some (true, ⟨pcb4 e, 4, 0, 0, 501⟩)
  answer := some ⟨XNU_SOCKINFO_TCP, 1, (pcb4 e).fport.toUInt32, (pcb4 e).lport.toUInt32, 1,
    inAddr4 e.remote.1, inAddr4 e.laddr⟩
  sockname := x.sockname
  peername := x.peername
  recordSays := ⟨_, rfl, hx _ (pcb4_keeps e)⟩
  answerSays := by
    refine ⟨_, rfl, .inr rfl, rfl, hx _ ?_⟩
    simp only [SocketFdinfo.pcb, UInt16.toUInt16_toUInt32]
    exact pcb4_keeps e
  namesSay := ⟨rfl, rfl⟩

def webEnds : Ends .inet := ⟨#v[10, 0, 0, 2], 50000, some (#v[10, 0, 0, 1], 443)⟩

/-- An IPv6 socket connected to an IPv4 peer. -/
def mappedFd : XnuFd := tcpFd 3 (.mapped webEnds) webEnds fun _ h => h

def freshEnds : Ends .inet := ⟨Addr.zero .inet, 0, none⟩

/-- A TCP socket just made. -/
def freshFd : XnuFd := tcpFd 4 (.own .inet freshEnds) freshEnds fun _ h => h

/-- A UNIX-domain stream socket. -/
def unixFd : XnuFd where
  pid := 7
  fd := 5
  socket := .other 1
  record := none
  answer := some ⟨3, 1, 0, 0, 0, inAddr4 (Addr.zero .inet), inAddr4 (Addr.zero .inet)⟩
  sockname := some .other
  peername := some .other
  recordSays := rfl
  answerSays := by
    rintro s ⟨rfl⟩
    decide
  namesSay := ⟨.inr rfl, .inr rfl⟩

/-- A process looking at itself finds no row for an IPv6 connection to an IPv4 peer, and
finds a UNIX-domain socket to be the TCP socket it has just made. -/
theorem hosts_not_joined : ¬ Joined 7 [mappedFd] ∧ ¬ Joined 7 [unixFd, freshFd] := by
  constructor
  · intro h
    have hlink := (h mappedFd (by simp)).1 true false _ ⟨_, rfl, rfl⟩
    revert hlink
    decide +kernel
  · intro h
    have hlink := (h unixFd (by simp)).2
    have hprint : freshFd.PrintedIn true false _ := ⟨_, rfl, rfl⟩
    have hne := hlink (fun _ _ _ => XnuFd.not_printedIn (by intro _ _ hs; cases hs)) true false _
      (mem_netTable_iff.mpr ⟨freshFd, by simp, hprint⟩)
    revert hne
    decide +kernel

end ApeShim.Procfs
