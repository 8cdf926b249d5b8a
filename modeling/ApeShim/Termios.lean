import Mathlib
import ApeShim.Lib.Memory
import ApeShim.Lib.Naming

/-!
Terminal settings (`shim/termios.c`): `prefix_to_linux` and `prefix_to_host`, and what is left
of a host's `struct termios` that goes through both. The host's constants are any words at all.
-/

namespace ApeShim.Tty
open Flags

abbrev Word := BitVec 32

/-! ## The tables -/

/-- The rows of `SHIM_TIFLAG_TABLE`. -/
inductive IFlag
  | ignbrk | brkint | ignpar | parmrk | inpck | istrip | inlcr | igncr | icrnl | iuclc | ixon | ixany
  | ixoff | imaxbel | iutf8
  deriving DecidableEq

/-- The rows of `SHIM_TOFLAG_TABLE`. -/
inductive OFlag
  | opost | olcuc | onlcr | ocrnl | onocr | onlret | ofill | ofdel
  deriving DecidableEq

/-- The rows of `SHIM_TCFLAG_TABLE`. -/
inductive CFlag
  | csize | cs6 | cs7 | cs8 | cstopb | cread | parenb | parodd | hupcl | clocal | crtscts | cmspar
  deriving DecidableEq

/-- The rows of `SHIM_TLFLAG_TABLE`. -/
inductive LFlag
  | isig | icanon | xcase | echo | echoe | echok | echonl | noflsh | tostop | echoctl | echoprt
  | echoke | flusho | pendin | iexten | extproc
  deriving DecidableEq

/-- The fields of `SHIM_TODLY_TABLE`. -/
inductive DlyField
  | nldly | crdly | tabdly | bsdly | vtdly | ffdly
  deriving DecidableEq

/-- The codes in these fields that `odly_to_host` and `odly_to_linux` go through. -/
inductive Dly
  | nl1 | cr1 | cr2 | cr3 | tab1 | tab2 | tab3 | bs1 | vt1 | ff1
  deriving DecidableEq

/-- The rows of `SHIM_TCC_TABLE`. -/
inductive CC
  | vintr | vquit | verase | vkill | veof | vtime | vmin | vswtc | vstart | vstop | vsusp | veol
  | vreprint | vdiscard | vwerase | vlnext | veol2
  deriving DecidableEq

/-- The rows of `SHIM_BAUD_TABLE`. -/
inductive Baud
  | b0 | b50 | b75 | b110 | b134 | b150 | b200 | b300 | b600 | b1200 | b1800 | b2400 | b4800 | b9600
  | b19200 | b38400 | b57600 | b115200 | b230400 | b500000 | b576000 | b1000000 | b1152000
  | b1500000 | b2000000 | b2500000 | b3000000 | b3500000 | b4000000
  deriving DecidableEq

def IFlag.all : List IFlag :=
  [.ignbrk, .brkint, .ignpar, .parmrk, .inpck, .istrip, .inlcr, .igncr, .icrnl, .iuclc, .ixon,
    .ixany, .ixoff, .imaxbel, .iutf8]

def OFlag.all : List OFlag := [.opost, .olcuc, .onlcr, .ocrnl, .onocr, .onlret, .ofill, .ofdel]

def CFlag.all : List CFlag :=
  [.csize, .cs6, .cs7, .cs8, .cstopb, .cread, .parenb, .parodd, .hupcl, .clocal, .crtscts, .cmspar]

def LFlag.all : List LFlag :=
  [.isig, .icanon, .xcase, .echo, .echoe, .echok, .echonl, .noflsh, .tostop, .echoctl, .echoprt,
    .echoke, .flusho, .pendin, .iexten, .extproc]

def Dly.all : List Dly := [.nl1, .cr1, .cr2, .cr3, .tab1, .tab2, .tab3, .bs1, .vt1, .ff1]

def DlyField.all : List DlyField := [.nldly, .crdly, .tabdly, .bsdly, .vtdly, .ffdly]

def CC.all : List CC :=
  [.vintr, .vquit, .verase, .vkill, .veof, .vtime, .vmin, .vswtc, .vstart, .vstop, .vsusp, .veol,
    .vreprint, .vdiscard, .vwerase, .vlnext, .veol2]

def Baud.all : List Baud :=
  [.b0, .b50, .b75, .b110, .b134, .b150, .b200, .b300, .b600, .b1200, .b1800, .b2400, .b4800, .b9600,
    .b19200, .b38400, .b57600, .b115200, .b230400, .b500000, .b576000, .b1000000, .b1152000,
    .b1500000, .b2000000, .b2500000, .b3000000, .b3500000, .b4000000]

/-! The Linux column. -/

def IFlag.lin : IFlag → Word
  | ignbrk => 1#32
  | brkint => 2#32
  | ignpar => 4#32
  | parmrk => 8#32
  | inpck => 16#32
  | istrip => 32#32
  | inlcr => 64#32
  | igncr => 128#32
  | icrnl => 256#32
  | iuclc => 512#32
  | ixon => 1024#32
  | ixany => 2048#32
  | ixoff => 4096#32
  | imaxbel => 8192#32
  | iutf8 => 16384#32

def OFlag.lin : OFlag → Word
  | opost => 1#32
  | olcuc => 2#32
  | onlcr => 4#32
  | ocrnl => 8#32
  | onocr => 16#32
  | onlret => 32#32
  | ofill => 64#32
  | ofdel => 128#32

def CFlag.lin : CFlag → Word
  | csize => 48#32
  | cs6 => 16#32
  | cs7 => 32#32
  | cs8 => 48#32
  | cstopb => 64#32
  | cread => 128#32
  | parenb => 256#32
  | parodd => 512#32
  | hupcl => 1024#32
  | clocal => 2048#32
  | crtscts => 2147483648#32
  | cmspar => 1073741824#32

def LFlag.lin : LFlag → Word
  | isig => 1#32
  | icanon => 2#32
  | xcase => 4#32
  | echo => 8#32
  | echoe => 16#32
  | echok => 32#32
  | echonl => 64#32
  | noflsh => 128#32
  | tostop => 256#32
  | echoctl => 512#32
  | echoprt => 1024#32
  | echoke => 2048#32
  | flusho => 4096#32
  | pendin => 16384#32
  | iexten => 32768#32
  | extproc => 65536#32

def DlyField.lin : DlyField → Word
  | nldly => 256#32
  | crdly => 1536#32
  | tabdly => 6144#32
  | bsdly => 8192#32
  | vtdly => 16384#32
  | ffdly => 32768#32

def Dly.field : Dly → DlyField
  | nl1 => .nldly
  | cr1 | cr2 | cr3 => .crdly
  | tab1 | tab2 | tab3 => .tabdly
  | bs1 => .bsdly
  | vt1 => .vtdly
  | ff1 => .ffdly

def Dly.lin : Dly → Word
  | nl1 => 256#32
  | cr1 => 512#32
  | cr2 => 1024#32
  | cr3 => 1536#32
  | tab1 => 2048#32
  | tab2 => 4096#32
  | tab3 => 6144#32
  | bs1 => 8192#32
  | vt1 => 16384#32
  | ff1 => 32768#32

/-- The index of a control character. -/
def CC.lin : CC → Nat
  | vintr => 0
  | vquit => 1
  | verase => 2
  | vkill => 3
  | veof => 4
  | vtime => 5
  | vmin => 6
  | vswtc => 7
  | vstart => 8
  | vstop => 9
  | vsusp => 10
  | veol => 11
  | vreprint => 12
  | vdiscard => 13
  | vwerase => 14
  | vlnext => 15
  | veol2 => 16

def Baud.lin : Baud → Word
  | b0 => 0#32
  | b50 => 1#32
  | b75 => 2#32
  | b110 => 3#32
  | b134 => 4#32
  | b150 => 5#32
  | b200 => 6#32
  | b300 => 7#32
  | b600 => 8#32
  | b1200 => 9#32
  | b1800 => 10#32
  | b2400 => 11#32
  | b4800 => 12#32
  | b9600 => 13#32
  | b19200 => 14#32
  | b38400 => 15#32
  | b57600 => 4097#32
  | b115200 => 4098#32
  | b230400 => 4099#32
  | b500000 => 4101#32
  | b576000 => 4102#32
  | b1000000 => 4104#32
  | b1152000 => 4105#32
  | b1500000 => 4106#32
  | b2000000 => 4107#32
  | b2500000 => 4108#32
  | b3000000 => 4109#32
  | b3500000 => 4110#32
  | b4000000 => 4111#32

/-- `SHIM_LIN_CSIZE` -/
def linCsize : Word := 48#32

/-- `SHIM_LIN_CBAUD` -/
def linCbaud : Word := 4111#32

/-- `SHIM_LIN_CBAUDEX` -/
def linCbaudex : Word := 4096#32

/-- `LIN_ODLY_MASK` -/
def linOdlyMask : Word :=
  DlyField.nldly.lin ||| DlyField.crdly.lin ||| DlyField.tabdly.lin ||| DlyField.bsdly.lin |||
    DlyField.vtdly.lin ||| DlyField.ffdly.lin

/-- `NCCS` of the host. -/
def nccs : Nat := 20

/-! ## The host -/

/-- The host's `struct termios`. -/
structure Termios where
  iflag : Word
  oflag : Word
  cflag : Word
  lflag : Word
  cc : Fin nccs → UInt8
  ispeed : Word
  ospeed : Word

/-- `memset(t, 0, sizeof *t)` -/
def Termios.zero : Termios := ⟨0, 0, 0, 0, fun _ => 0, 0, 0⟩

/-- The host's constants, as its headers have them. -/
structure Consts where
  iflagConst : IFlag → Word
  oflagConst : OFlag → Word
  cflag : CFlag → Word
  lflagConst : LFlag → Word
  dlyMask : DlyField → Word
  dly : Dly → Word
  cc : CC → UInt32
  baudConst : Baud → Word
  /-- `_POSIX_VDISABLE`, as a `uint8_t` -/
  vdisable : UInt8

namespace Consts

variable (c : Consts)

/-- The host column of `SHIM_TIFLAG_TABLE`: `SHIM_FIX_*` are the table's own. -/
def iflag : IFlag → Word
  | .ignbrk => 1#32
  | .brkint => 2#32
  | .ignpar => 4#32
  | .parmrk => 8#32
  | .inpck => 16#32
  | .istrip => 32#32
  | .inlcr => 64#32
  | .igncr => 128#32
  | .icrnl => 256#32
  | .ixany => 2048#32
  | .imaxbel => 8192#32
  | f => c.iflagConst f

def oflag : OFlag → Word
  | .opost => 1#32
  | f => c.oflagConst f

def lflag : LFlag → Word
  | .echo => 8#32
  | f => c.lflagConst f

def baud : Baud → Word
  | .b0 => 0#32
  | b => c.baudConst b

end Consts

/-- The host's `cf*` functions. -/
structure Cf where
  cfsetospeed : Termios → Word → Termios
  cfsetispeed : Termios → Word → Termios
  cfgetospeed : Termios → Word
  cfgetispeed : Termios → Word

/-! ## The translation -/

/-- The first function of `DEFINE_BITS`. -/
def bitsToHost {ι : Type} (all : List ι) (host lin : ι → Word) (x : Word) : Word :=
  gather (fun n => has x (lin n)) host all

/-- The second one. -/
def bitsToLinux {ι : Type} (all : List ι) (host lin : ι → Word) (x : Word) : Word :=
  gather (fun n => host n != 0#32 && x &&& host n == host n) lin all

namespace Consts

variable (c : Consts)

def odlyToHost (lin : Word) : Word :=
  gather (fun d => c.dlyMask d.field != 0#32 && lin &&& d.field.lin == d.lin) c.dly Dly.all

def odlyToLinux (host : Word) : Word :=
  gather (fun d => c.dlyMask d.field != 0#32 && host &&& c.dlyMask d.field == c.dly d &&
    c.dly d != 0#32) Dly.lin Dly.all

def csizeToHost (lin : Word) : Word :=
  let f := lin &&& linCsize
  if f = CFlag.cs6.lin then c.cflag .cs6
  else if f = CFlag.cs7.lin then c.cflag .cs7
  else if f = CFlag.cs8.lin then c.cflag .cs8
  else 0#32

def csizeToLinux (host : Word) : Word :=
  let f := host &&& c.cflag .csize
  if c.cflag .cs8 ≠ 0#32 ∧ f = c.cflag .cs8 then CFlag.cs8.lin
  else if c.cflag .cs7 ≠ 0#32 ∧ f = c.cflag .cs7 then CFlag.cs7.lin
  else if c.cflag .cs6 ≠ 0#32 ∧ f = c.cflag .cs6 then CFlag.cs6.lin
  else 0#32

def baudToHost (lincode : Word) : Option Word :=
  (Baud.all.find? fun b => lincode == b.lin).map c.baud

def baudToLinux (hostcode : Word) : Option Word :=
  (Baud.all.find? fun b => hostcode == c.baud b).map Baud.lin

end Consts

/-- `CC_IS_COUNT` -/
def CC.isCount (x : CC) : Bool := x = .vmin || x = .vtime

/-- One write of `cc_to_host`. -/
def Consts.ccPutHost (c : Consts) {n : Nat} (lin : Fin n → UInt8) (host : Fin nccs → UInt8) (x : CC) :
    Fin nccs → UInt8 :=
  if h : x.lin < n ∧ (c.cc x).toNat < nccs then
    let b := lin ⟨x.lin, h.1⟩
    Function.update host ⟨(c.cc x).toNat, h.2⟩ (if b = 0 ∧ x.isCount = false then c.vdisable else b)
  else host

def Consts.ccToHost (c : Consts) {n : Nat} (lin : Fin n → UInt8) : Fin nccs → UInt8 :=
  CC.all.foldl (c.ccPutHost lin) Termios.zero.cc

/-- One write of `cc_to_linux`. -/
def Consts.ccPutLinux (c : Consts) {n : Nat} (host : Fin nccs → UInt8) (lin : Fin n → UInt8) (x : CC) :
    Fin n → UInt8 :=
  if h : x.lin < n ∧ (c.cc x).toNat < nccs then
    let b := host ⟨(c.cc x).toNat, h.2⟩
    Function.update lin ⟨x.lin, h.1⟩ (if b = c.vdisable ∧ x.isCount = false then 0 else b)
  else lin

def Consts.ccToLinux (c : Consts) {n : Nat} (host : Fin nccs → UInt8) : Fin n → UInt8 :=
  CC.all.foldl (c.ccPutLinux host) fun _ => 0

/-- The prefix of the Linux structs: four flag words and `n` control characters. -/
structure Prefix (n : Nat) where
  iflag : Word
  oflag : Word
  cflag : Word
  lflag : Word
  cc : Fin n → UInt8

def Consts.prefixToHost (c : Consts) (cf : Cf) {n : Nat} (f : Prefix n) : Termios :=
  let t := { Termios.zero with
    iflag := bitsToHost IFlag.all c.iflag IFlag.lin f.iflag
    oflag := bitsToHost OFlag.all c.oflag OFlag.lin (f.oflag &&& ~~~linOdlyMask) |||
      c.odlyToHost f.oflag
    cflag := bitsToHost CFlag.all c.cflag CFlag.lin
        (f.cflag &&& ~~~(linCsize ||| linCbaud ||| linCbaudex)) ||| c.csizeToHost f.cflag
    lflag := bitsToHost LFlag.all c.lflag LFlag.lin f.lflag
    cc := c.ccToHost f.cc }
  match c.baudToHost (f.cflag &&& linCbaud) with
  | some sp => cf.cfsetispeed (cf.cfsetospeed t sp) sp
  | none => t

def Consts.prefixToLinux (c : Consts) (cf : Cf) (n : Nat) (t : Termios) : Prefix n where
  iflag := bitsToLinux IFlag.all c.iflag IFlag.lin t.iflag
  oflag := bitsToLinux OFlag.all c.oflag OFlag.lin t.oflag ||| c.odlyToLinux t.oflag
  cflag := (bitsToLinux CFlag.all c.cflag CFlag.lin (t.cflag &&& ~~~c.cflag .csize) |||
    c.csizeToLinux t.cflag) ||| (c.baudToLinux (cf.cfgetospeed t)).getD 0#32
  lflag := bitsToLinux LFlag.all c.lflag LFlag.lin t.lflag
  cc := c.ccToLinux t.cc

/-! ## What survives -/

/-- The flags of the table that are no character size. -/
def CFlag.flags : List CFlag :=
  [.cstopb, .cread, .parenb, .parodd, .hupcl, .clocal, .crtscts, .cmspar]

/-- A host without the flag has 0 for it; every other flag is a bit of its own. -/
structure Fields {ι : Type} (k : ι → Word) (ns : List ι) : Prop where
  single : ∀ n ∈ ns, k n = 0#32 ∨ ∃ i, k n = BitVec.twoPow 32 i
  apart : ∀ m ∈ ns, ∀ n ∈ ns, m ≠ n → has (k m) (k n) = false

/-- The host's flags are disjoint bits, and its fields are disjoint from them and from each other;
the codes of a field are in the field, and those of a delay are told apart. -/
structure Consts.Disjoint (c : Consts) : Prop where
  iflag : Fields c.iflag IFlag.all
  oflag : Fields c.oflag OFlag.all
  cflag : Fields c.cflag CFlag.flags
  lflag : Fields c.lflag LFlag.all
  oflag_dly : ∀ f g, has (c.oflag f) (c.dlyMask g) = false
  dly_apart : ∀ g h, g ≠ h → has (c.dlyMask g) (c.dlyMask h) = false
  dly_within : ∀ d, within (c.dly d) (c.dlyMask d.field) = true
  dly_inj : ∀ d e, d.field = e.field → c.dly d = c.dly e → c.dly d ≠ 0#32 → d = e
  cflag_csize : ∀ f ∈ CFlag.flags, has (c.cflag f) (c.cflag .csize) = false
  csize_within : ∀ f ∈ [CFlag.cs6, .cs7, .cs8], within (c.cflag f) (c.cflag .csize) = true

/-- `cfsetospeed` and `cfsetispeed` store a speed that `cfgetospeed` and `cfgetispeed` read, and
touch nothing else that the tables are about. -/
structure Consts.Stores (c : Consts) (cf : Cf) : Prop where
  ospeed : ∀ t b, cf.cfgetospeed (cf.cfsetispeed (cf.cfsetospeed t (c.baud b)) (c.baud b)) = c.baud b
  ispeed : ∀ t b, cf.cfgetispeed (cf.cfsetispeed (cf.cfsetospeed t (c.baud b)) (c.baud b)) = c.baud b
  iflag : ∀ t sp, (cf.cfsetispeed (cf.cfsetospeed t sp) sp).iflag = t.iflag
  oflag : ∀ t sp, (cf.cfsetispeed (cf.cfsetospeed t sp) sp).oflag = t.oflag
  cflag : ∀ t sp f, (cf.cfsetispeed (cf.cfsetospeed t sp) sp).cflag &&& c.cflag f = t.cflag &&& c.cflag f
  lflag : ∀ t sp, (cf.cfsetispeed (cf.cfsetospeed t sp) sp).lflag = t.lflag
  cc : ∀ t sp, (cf.cfsetispeed (cf.cfsetospeed t sp) sp).cc = t.cc

/-- The last row of the table for a slot, which is what is in it at the end. -/
def Consts.rowOf (c : Consts) (i : Fin nccs) : Option CC :=
  (CC.all.filter fun x => (c.cc x).toNat = i.val).getLast?

/-- A character that is not taken for a disabled one; a slot without a row is cleared. -/
def Consts.CcKept (c : Consts) (t : Termios) (i : Fin nccs) : Prop :=
  (c.rowOf i).elim (t.cc i = 0) fun x => x.isCount = true ∨ t.cc i ≠ 0 ∨ c.vdisable = 0

/-- What comes back of a terminal's settings. -/
structure Consts.Survives (c : Consts) (cf : Cf) (t t' : Termios) : Prop where
  iflag : ∀ f, has t'.iflag (c.iflag f) = has t.iflag (c.iflag f)
  oflag : ∀ f, has t'.oflag (c.oflag f) = has t.oflag (c.oflag f)
  cflag : ∀ f ∈ CFlag.flags, has t'.cflag (c.cflag f) = has t.cflag (c.cflag f)
  lflag : ∀ f, has t'.lflag (c.lflag f) = has t.lflag (c.lflag f)
  /-- the size, if it is one of the codes -/
  csize : t'.cflag &&& c.cflag .csize = t.cflag &&& c.cflag .csize ↔
    t.cflag &&& c.cflag .csize = 0#32 ∨
      ∃ f ∈ [CFlag.cs6, .cs7, .cs8], t.cflag &&& c.cflag .csize = c.cflag f
  /-- a delay, if it is one of the codes -/
  delays : ∀ g, t'.oflag &&& c.dlyMask g = t.oflag &&& c.dlyMask g ↔
    t.oflag &&& c.dlyMask g = 0#32 ∨ ∃ d : Dly, d.field = g ∧ t.oflag &&& c.dlyMask g = c.dly d
  cc : ∀ i, t'.cc i = t.cc i ↔ c.CcKept t i
  /-- an output speed of the table, which the input then has too -/
  speed : ∀ b, c.baud b = cf.cfgetospeed t →
    cf.cfgetospeed t' = cf.cfgetospeed t ∧ cf.cfgetispeed t' = cf.cfgetospeed t

/-! ## Flags -/

section Rows

variable {ι : Type} {all ns : List ι} {host lin : ι → Word} {x l : Word} {n : ι}

theorem has_single {k : Word} (h : k = 0#32 ∨ ∃ i, k = BitVec.twoPow 32 i) :
    has x k = true ↔ k ≠ 0#32 ∧ x &&& k = k := by
  constructor
  · intro hx
    constructor
    · rintro rfl
      rw [has_comm, has_zero_left] at hx
      cases hx
    · rcases h with rfl | ⟨i, rfl⟩
      · exact BitVec.and_zero
      · rw [BitVec.and_comm]
        exact within_iff_and.mp (within_of_has_twoPow hx)
  · rintro ⟨hne, hand⟩
    rw [has, hand]
    exact bne_iff_ne.mpr hne

/-- A flag is reported if it is set. -/
theorem has_bitsToLinux (hk : Fields host ns) (hsub : ∀ m ∈ ns, m ∈ all)
    (hx : ∀ m ∈ all, m ∉ ns → host m = 0#32 ∨ x &&& host m ≠ host m)
    (hlin : ∀ m ∈ ns, ∀ n ∈ ns, has (lin m) (lin n) = true ↔ m = n) (hn : n ∈ ns) :
    has (bitsToLinux all host lin x) (lin n) = has x (host n) := by
  rw [Bool.eq_iff_iff, bitsToLinux, has_gather, has_single (hk.single n hn)]
  simp only [Bool.and_eq_true, bne_iff_ne, beq_iff_eq]
  constructor
  · rintro ⟨m, hm, hset, hshare⟩
    have hmem : m ∈ ns := by
      by_contra hout
      exact (hx m hm hout).elim hset.1 fun hne => hne hset.2
    obtain rfl := (hlin m hmem n hn).mp hshare
    exact hset
  · intro hset
    exact ⟨n, hsub n hn, hset, (hlin n hn n hn).mpr rfl⟩

/-- A flag is set if it is asked for. -/
theorem has_bitsToHost (hk : Fields host ns) (hsub : ∀ m ∈ ns, m ∈ all)
    (hl : ∀ m ∈ all, m ∉ ns → has l (lin m) = false) (hn : n ∈ ns) :
    has (bitsToHost all host lin l) (host n) = true ↔ has l (lin n) = true ∧ host n ≠ 0#32 := by
  rw [bitsToHost, has_gather]
  constructor
  · rintro ⟨m, hm, hset, hshare⟩
    have hmem : m ∈ ns := by
      by_contra hout
      exact Bool.false_ne_true ((hl m hm hout).symm.trans hset)
    have hsame : m = n := by
      by_contra hne
      exact Bool.false_ne_true ((hk.apart m hmem n hn hne).symm.trans hshare)
    subst hsame
    exact ⟨hset, has_self_iff.mp hshare⟩
  · rintro ⟨hset, hne⟩
    exact ⟨n, hsub n hn, hset, has_self_iff.mpr hne⟩

/-- **Flags** go through both translations. -/
theorem has_bits (hk : Fields host ns) (hsub : ∀ m ∈ ns, m ∈ all)
    (hx : ∀ m ∈ all, m ∉ ns → host m = 0#32 ∨ x &&& host m ≠ host m)
    (hlin : ∀ m ∈ ns, ∀ n ∈ ns, has (lin m) (lin n) = true ↔ m = n)
    (hl : ∀ m ∈ all, m ∉ ns → has l (lin m) = false) (hn : n ∈ ns)
    (hsame : has l (lin n) = has (bitsToLinux all host lin x) (lin n)) :
    has (bitsToHost all host lin l) (host n) = has x (host n) := by
  rw [Bool.eq_iff_iff, has_bitsToHost hk hsub hl hn, hsame, has_bitsToLinux hk hsub hx hlin hn]
  constructor
  · exact fun h => h.1
  · intro h
    exact ⟨h, ((has_single (hk.single n hn)).mp h).1⟩

/-- Nothing else takes part in a table of flags only. -/
theorem has_bits_all (hk : Fields host all)
    (hlin : ∀ m ∈ all, ∀ n ∈ all, has (lin m) (lin n) = true ↔ m = n) (hn : n ∈ all) :
    has (bitsToHost all host lin (bitsToLinux all host lin x)) (host n) = has x (host n) :=
  has_bits hk (fun _ hm => hm) (fun _ hm hout => absurd hm hout) hlin
    (fun _ hm hout => absurd hm hout) hn rfl

end Rows

section Tables

variable {c : Consts} {cf : Cf} {t : Termios} {n : Nat}

theorem IFlag.mem_all (f : IFlag) : f ∈ IFlag.all := by cases f <;> decide

theorem OFlag.mem_all (f : OFlag) : f ∈ OFlag.all := by cases f <;> decide

theorem LFlag.mem_all (f : LFlag) : f ∈ LFlag.all := by cases f <;> decide

theorem Dly.mem_all (d : Dly) : d ∈ Dly.all := by cases d <;> decide

theorem DlyField.mem_all (g : DlyField) : g ∈ DlyField.all := by cases g <;> decide

theorem CC.mem_all (x : CC) : x ∈ CC.all := by cases x <;> decide

theorem Baud.mem_all (b : Baud) : b ∈ Baud.all := by cases b <;> decide

theorem IFlag.lin_apart : ∀ f ∈ IFlag.all, ∀ g ∈ IFlag.all, has f.lin g.lin = true ↔ f = g := by
  decide

theorem OFlag.lin_apart : ∀ f ∈ OFlag.all, ∀ g ∈ OFlag.all, has f.lin g.lin = true ↔ f = g := by
  decide

theorem LFlag.lin_apart : ∀ f ∈ LFlag.all, ∀ g ∈ LFlag.all, has f.lin g.lin = true ↔ f = g := by
  decide

theorem CFlag.lin_apart : ∀ f ∈ CFlag.flags, ∀ g ∈ CFlag.flags, has f.lin g.lin = true ↔ f = g := by
  decide

/-! ### The output flags and the delays -/

theorem has_linOdlyMask : ∀ f ∈ OFlag.all, has linOdlyMask f.lin = false := by decide

theorem oflag_dly_lin : ∀ f ∈ OFlag.all, ∀ g ∈ DlyField.all, has f.lin g.lin = false := by
  decide

theorem dly_oflag_lin : ∀ d ∈ Dly.all, ∀ f ∈ OFlag.all, has d.lin f.lin = false := by decide

theorem dly_lin_field : ∀ d ∈ Dly.all, ∀ g ∈ DlyField.all,
    (d.field = g → within d.lin g.lin = true) ∧ (d.field ≠ g → has d.lin g.lin = false) := by
  decide

theorem dly_lin_inj : ∀ d ∈ Dly.all, d.lin ≠ 0#32 ∧ ∀ e ∈ Dly.all, d.lin = e.lin → d = e := by
  decide

/-- The output flags in the Linux word. -/
def Consts.linOflag (c : Consts) (x : Word) : Word :=
  bitsToLinux OFlag.all c.oflag OFlag.lin x ||| c.odlyToLinux x

/-- And back. -/
def Consts.backOflag (c : Consts) (x : Word) : Word :=
  bitsToHost OFlag.all c.oflag OFlag.lin (c.linOflag x &&& ~~~linOdlyMask) |||
    c.odlyToHost (c.linOflag x)

theorem oflag_bits (hc : c.Disjoint) (x : Word) (f : OFlag) :
    has (c.backOflag x) (c.oflag f) = has x (c.oflag f) := by
  have hdly : has (c.odlyToHost (c.linOflag x)) (c.oflag f) = false := by
    rw [has_comm]
    refine Bool.eq_false_iff.mpr fun h => ?_
    rw [has_comm, Consts.odlyToHost, has_gather] at h
    obtain ⟨d, -, -, hshare⟩ := h
    have hnot := has_within (hc.oflag_dly f d.field) (hc.dly_within d)
    rw [has_comm] at hnot
    exact Bool.false_ne_true (hnot.symm.trans hshare)
  have hlin : has (c.linOflag x &&& ~~~linOdlyMask) f.lin =
      has (bitsToLinux OFlag.all c.oflag OFlag.lin x) f.lin := by
    have hcode : has (c.odlyToLinux x) f.lin = false := by
      refine Bool.eq_false_iff.mpr fun h => ?_
      rw [Consts.odlyToLinux, has_gather] at h
      obtain ⟨d, hd, -, hshare⟩ := h
      have hnot := dly_oflag_lin d hd f f.mem_all
      exact Bool.false_ne_true (hnot.symm.trans hshare)
    rw [has_clear _ _ _ (has_linOdlyMask f f.mem_all), Consts.linOflag, has_or_left, hcode,
      Bool.or_false]
  rw [Consts.backOflag, has_or_left, hdly, Bool.or_false]
  exact has_bits hc.oflag (fun _ hm => hm) (fun _ hm hout => absurd hm hout) OFlag.lin_apart
    (fun _ hm hout => absurd hm hout) f.mem_all hlin

/-- What the Linux word has in a delay field. -/
theorem linOflag_field (g : DlyField) (x : Word) : c.linOflag x &&& g.lin =
    gather (fun d => (c.dlyMask d.field != 0#32 && x &&& c.dlyMask d.field == c.dly d &&
      c.dly d != 0#32) && decide (d.field = g)) Dly.lin Dly.all := by
  have hflags : bitsToLinux OFlag.all c.oflag OFlag.lin x &&& g.lin = 0#32 := by
    rw [← has_eq_false_iff_and]
    refine Bool.eq_false_iff.mpr fun h => ?_
    rw [bitsToLinux, has_gather] at h
    obtain ⟨f, hf, -, hshare⟩ := h
    exact Bool.false_ne_true ((oflag_dly_lin f hf g g.mem_all).symm.trans hshare)
  rw [Consts.linOflag, BitVec.and_or_distrib_right, hflags, BitVec.zero_or]
  refine gather_and (fun d hd hp => ?_) fun d hd hp => ?_
  · exact (dly_lin_field d hd g g.mem_all).1 (of_decide_eq_true hp)
  · exact (dly_lin_field d hd g g.mem_all).2 (of_decide_eq_false hp)

/-- What the host word gets in it. -/
theorem backOflag_field (hc : c.Disjoint) (g : DlyField) (x : Word) :
    c.backOflag x &&& c.dlyMask g =
      gather (fun d => (c.dlyMask d.field != 0#32 && c.linOflag x &&& d.field.lin == d.lin) &&
        decide (d.field = g)) c.dly Dly.all := by
  have hflags : bitsToHost OFlag.all c.oflag OFlag.lin (c.linOflag x &&& ~~~linOdlyMask) &&&
      c.dlyMask g = 0#32 := by
    rw [← has_eq_false_iff_and]
    refine Bool.eq_false_iff.mpr fun h => ?_
    rw [bitsToHost, has_gather] at h
    obtain ⟨f, -, -, hshare⟩ := h
    exact Bool.false_ne_true ((hc.oflag_dly f g).symm.trans hshare)
  rw [Consts.backOflag, BitVec.and_or_distrib_right, hflags, BitVec.zero_or]
  refine gather_and (fun d _ hp => ?_) fun d _ hp => ?_
  · exact of_decide_eq_true hp ▸ hc.dly_within d
  · rw [has_comm]
    exact has_within (hc.dly_apart _ _ (Ne.symm (of_decide_eq_false hp))) (hc.dly_within d)

/-- **A delay field** goes through both translations if it holds one of its codes. -/
theorem delay_iff (hc : c.Disjoint) (g : DlyField) (x : Word) :
    c.backOflag x &&& c.dlyMask g = x &&& c.dlyMask g ↔
      x &&& c.dlyMask g = 0#32 ∨ ∃ d : Dly, d.field = g ∧ x &&& c.dlyMask g = c.dly d := by
  rw [backOflag_field hc]
  by_cases hcode : ∃ d : Dly, d.field = g ∧ x &&& c.dlyMask g = c.dly d ∧ c.dly d ≠ 0#32
  · obtain ⟨d, hd, hval, hne⟩ := hcode
    have hmask : c.dlyMask g ≠ 0#32 := by
      intro hzero
      rw [hzero, BitVec.and_zero] at hval
      exact hne hval.symm
    have hlin : c.linOflag x &&& g.lin = d.lin := by
      rw [linOflag_field]
      refine gather_one d.mem_all fun e _ => ?_
      simp only [Bool.and_eq_true, bne_iff_ne, beq_iff_eq, decide_eq_true_eq]
      constructor
      · rintro ⟨⟨⟨-, he⟩, -⟩, hfield⟩
        rw [hfield, hval] at he
        exact (hc.dly_inj d e (hd.trans hfield.symm) he hne).symm
      · rintro rfl
        rw [hd]
        exact ⟨⟨⟨hmask, hval⟩, hne⟩, rfl⟩
    have hback : gather (fun d => (c.dlyMask d.field != 0#32 &&
        c.linOflag x &&& d.field.lin == d.lin) && decide (d.field = g)) c.dly Dly.all = c.dly d := by
      refine gather_one d.mem_all fun e he => ?_
      simp only [Bool.and_eq_true, bne_iff_ne, beq_iff_eq, decide_eq_true_eq]
      constructor
      · rintro ⟨⟨-, heq⟩, hfield⟩
        rw [hfield, hlin] at heq
        exact ((dly_lin_inj d d.mem_all).2 e he heq).symm
      · rintro rfl
        rw [hd]
        exact ⟨⟨hmask, hlin⟩, rfl⟩
    rw [hback, hval]
    exact iff_of_true rfl (Or.inr ⟨d, hd, rfl⟩)
  · have hlin : c.linOflag x &&& g.lin = 0#32 := by
      rw [linOflag_field]
      refine gather_none fun e _ => Bool.eq_false_iff.mpr ?_
      simp only [ne_eq, Bool.and_eq_true, bne_iff_ne, beq_iff_eq, decide_eq_true_eq]
      rintro ⟨⟨⟨-, he⟩, hne⟩, hfield⟩
      exact hcode ⟨e, hfield, hfield ▸ he, hne⟩
    have hback : gather (fun d => (c.dlyMask d.field != 0#32 &&
        c.linOflag x &&& d.field.lin == d.lin) && decide (d.field = g)) c.dly Dly.all = 0#32 := by
      refine gather_none fun e he => Bool.eq_false_iff.mpr ?_
      simp only [ne_eq, Bool.and_eq_true, bne_iff_ne, beq_iff_eq, decide_eq_true_eq]
      rintro ⟨⟨-, heq⟩, hfield⟩
      rw [hfield, hlin] at heq
      exact (dly_lin_inj e he).1 heq.symm
    rw [hback]
    constructor
    · exact fun h => Or.inl h.symm
    · rintro (h | ⟨d, hd, hval⟩)
      · exact h.symm
      · by_contra hne
        exact hcode ⟨d, hd, hval, fun hzero => hne (by rw [hval, hzero])⟩

/-! ### The control flags, the size and the speed -/

/-- What `prefix_to_host` takes out of the control flags. -/
def linCmask : Word := linCsize ||| linCbaud ||| linCbaudex

theorem cflag_lin : ∀ f ∈ CFlag.flags, f ∈ CFlag.all ∧ has linCmask f.lin = false ∧
    has f.lin linCsize = false ∧ has f.lin linCbaud = false := by decide

theorem size_lin : ∀ f ∈ CFlag.all, f ∉ CFlag.flags →
    f ∈ [CFlag.csize, .cs6, .cs7, .cs8] ∧ within f.lin linCmask = true := by decide

theorem baud_lin : ∀ b ∈ Baud.all, within b.lin linCbaud = true ∧ has b.lin linCsize = false := by
  decide

theorem baud_lin_inj : ∀ b ∈ Baud.all, ∀ d ∈ Baud.all, b.lin = d.lin → b = d := by decide

theorem csize_cases (c : Consts) (x : Word) :
    (c.csizeToLinux x = 0#32 ∧ ∀ f ∈ [CFlag.cs6, .cs7, .cs8],
        c.cflag f ≠ 0#32 → x &&& c.cflag .csize ≠ c.cflag f) ∨
      ∃ f ∈ [CFlag.cs6, .cs7, .cs8], c.csizeToLinux x = f.lin ∧ c.cflag f ≠ 0#32 ∧
        x &&& c.cflag .csize = c.cflag f := by
  rw [Consts.csizeToLinux]
  split
  · rename_i h
    exact Or.inr ⟨.cs8, by decide, rfl, h⟩
  · rename_i h8
    split
    · rename_i h
      exact Or.inr ⟨.cs7, by decide, rfl, h⟩
    · rename_i h7
      split
      · rename_i h
        exact Or.inr ⟨.cs6, by decide, rfl, h⟩
      · rename_i h6
        refine Or.inl ⟨rfl, fun f hf hne hval => ?_⟩
        simp only [List.mem_cons, List.not_mem_nil, or_false] at hf
        rcases hf with rfl | rfl | rfl
        · exact h6 ⟨hne, hval⟩
        · exact h7 ⟨hne, hval⟩
        · exact h8 ⟨hne, hval⟩

/-- The control flags in the Linux word, at a speed. -/
def Consts.linCflag (c : Consts) (x sp : Word) : Word :=
  (bitsToLinux CFlag.all c.cflag CFlag.lin (x &&& ~~~c.cflag .csize) ||| c.csizeToLinux x) |||
    (c.baudToLinux sp).getD 0#32

/-- And back. -/
def Consts.backCflag (c : Consts) (l : Word) : Word :=
  bitsToHost CFlag.all c.cflag CFlag.lin (l &&& ~~~linCmask) ||| c.csizeToHost l

theorem size_word (x : Word) : ∃ f ∈ [CFlag.cs6, .cs7, .cs8], c.csizeToLinux x = 0#32 ∨
    c.csizeToLinux x = f.lin := by
  rcases csize_cases c x with ⟨h, -⟩ | ⟨f, hf, h, -⟩
  · exact ⟨.cs6, by decide, Or.inl h⟩
  · exact ⟨f, hf, Or.inr h⟩

theorem baud_word (sp : Word) : ∃ b ∈ Baud.all, (c.baudToLinux sp).getD 0#32 = b.lin := by
  rw [Consts.baudToLinux]
  cases hfind : Baud.all.find? fun b => sp == c.baud b with
  | none => exact ⟨.b0, by decide, rfl⟩
  | some b => exact ⟨b, b.mem_all, rfl⟩

theorem size_fields : ∀ f ∈ [CFlag.cs6, .cs7, .cs8], has f.lin linCbaud = false ∧
    within f.lin linCsize = true ∧ ∀ g ∈ CFlag.flags, has f.lin g.lin = false := by decide

theorem baud_flags : ∀ b ∈ Baud.all, ∀ g ∈ CFlag.flags, has b.lin g.lin = false := by decide

/-- The rows of the character size never fire. -/
theorem size_unset (hc : c.Disjoint) (x : Word) : ∀ f ∈ CFlag.all, f ∉ CFlag.flags →
    c.cflag f = 0#32 ∨ (x &&& ~~~c.cflag .csize) &&& c.cflag f ≠ c.cflag f := by
  intro f hf hout
  have hwithin : within (c.cflag f) (c.cflag .csize) = true := by
    have hmem := (size_lin f hf hout).1
    rw [List.mem_cons] at hmem
    rcases hmem with rfl | hmem
    · exact within_refl _
    · exact hc.csize_within f hmem
  have hclear : (x &&& ~~~c.cflag .csize) &&& c.cflag f = 0#32 := by
    rw [← has_eq_false_iff_and]
    exact has_within (has_cleared _ _) hwithin
  rw [hclear]
  by_cases hzero : c.cflag f = 0#32
  · exact Or.inl hzero
  · exact Or.inr fun h => hzero h.symm

theorem flags_word (hc : c.Disjoint) (x m : Word) (hm : ∀ f ∈ CFlag.flags, has f.lin m = false) :
    has (bitsToLinux CFlag.all c.cflag CFlag.lin (x &&& ~~~c.cflag .csize)) m = false := by
  refine Bool.eq_false_iff.mpr fun h => ?_
  rw [bitsToLinux, has_gather] at h
  obtain ⟨f, hf, hset, hshare⟩ := h
  rw [Bool.and_eq_true, bne_iff_ne, beq_iff_eq] at hset
  by_cases hin : f ∈ CFlag.flags
  · exact Bool.false_ne_true ((hm f hin).symm.trans hshare)
  · exact (size_unset hc x f hf hin).elim hset.1 fun hne => hne hset.2

/-- The three parts of the word are where they are looked for. -/
theorem linCflag_parts (hc : c.Disjoint) (x sp : Word) :
    (∀ f ∈ CFlag.flags, has (c.linCflag x sp) f.lin =
      has (bitsToLinux CFlag.all c.cflag CFlag.lin (x &&& ~~~c.cflag .csize)) f.lin) ∧
    c.linCflag x sp &&& linCsize = c.csizeToLinux x ∧
    c.linCflag x sp &&& linCbaud = (c.baudToLinux sp).getD 0#32 := by
  obtain ⟨s, hs, hsize⟩ := size_word (c := c) x
  obtain ⟨b, hb, hbaud⟩ := baud_word (c := c) sp
  obtain ⟨hbw, hbs⟩ := baud_lin b hb
  obtain ⟨hsb, hsw, hsf⟩ := size_fields s hs
  have hsb' : has (c.csizeToLinux x) linCbaud = false := by
    rcases hsize with h | h <;> rw [h]
    · exact has_zero_left _
    · exact hsb
  have hsw' : c.csizeToLinux x &&& linCsize = c.csizeToLinux x := by
    rcases hsize with h | h <;> rw [h]
    · exact BitVec.zero_and
    · exact within_iff_and.mp hsw
  rw [Consts.linCflag, hbaud]
  refine ⟨fun f hf => ?_, ?_, ?_⟩
  · have hsf' : has (c.csizeToLinux x) f.lin = false := by
      rcases hsize with h | h <;> rw [h]
      · exact has_zero_left _
      · exact hsf f hf
    rw [has_or_left, has_or_left, hsf', baud_flags b hb f hf, Bool.or_false, Bool.or_false]
  · rw [BitVec.and_or_distrib_right, BitVec.and_or_distrib_right, hsw',
      has_eq_false_iff_and.mp (flags_word hc x linCsize fun f hf => (cflag_lin f hf).2.2.1),
      has_eq_false_iff_and.mp hbs, BitVec.zero_or, BitVec.or_zero]
  · rw [BitVec.and_or_distrib_right, BitVec.and_or_distrib_right, within_iff_and.mp hbw,
      has_eq_false_iff_and.mp (flags_word hc x linCbaud fun f hf => (cflag_lin f hf).2.2.2),
      has_eq_false_iff_and.mp hsb', BitVec.zero_or, BitVec.zero_or]

theorem csizeToHost_within (hc : c.Disjoint) (l : Word) :
    within (c.csizeToHost l) (c.cflag .csize) = true := by
  rw [Consts.csizeToHost]
  split
  · exact hc.csize_within _ (by decide)
  · split
    · exact hc.csize_within _ (by decide)
    · split
      · exact hc.csize_within _ (by decide)
      · exact within_iff_and.mpr BitVec.zero_and

theorem cflag_bits (hc : c.Disjoint) (x sp : Word) : ∀ f ∈ CFlag.flags,
    has (c.backCflag (c.linCflag x sp)) (c.cflag f) = has x (c.cflag f) := by
  intro f hf
  have hsize : has (c.csizeToHost (c.linCflag x sp)) (c.cflag f) = false := by
    rw [has_comm]
    exact has_within (hc.cflag_csize f hf) (csizeToHost_within hc _)
  have hx : has (x &&& ~~~c.cflag .csize) (c.cflag f) = has x (c.cflag f) :=
    has_clear _ _ _ (by rw [has_comm]; exact hc.cflag_csize f hf)
  rw [Consts.backCflag, has_or_left, hsize, Bool.or_false, ← hx]
  refine has_bits hc.cflag (fun g hg => (cflag_lin g hg).1) (size_unset hc x) CFlag.lin_apart ?_ hf ?_
  · intro g hg hout
    exact has_within (has_cleared _ _) (size_lin g hg hout).2
  · rw [has_clear _ _ _ (cflag_lin f hf).2.1]
    exact (linCflag_parts hc x sp).1 f hf

/-- **The character size** goes through if it is one of the codes. -/
theorem csize_iff (hc : c.Disjoint) (x sp : Word) :
    c.backCflag (c.linCflag x sp) &&& c.cflag .csize = x &&& c.cflag .csize ↔
      x &&& c.cflag .csize = 0#32 ∨
        ∃ f ∈ [CFlag.cs6, .cs7, .cs8], x &&& c.cflag .csize = c.cflag f := by
  have hflags : bitsToHost CFlag.all c.cflag CFlag.lin (c.linCflag x sp &&& ~~~linCmask) &&&
      c.cflag .csize = 0#32 := by
    rw [← has_eq_false_iff_and]
    refine Bool.eq_false_iff.mpr fun h => ?_
    rw [bitsToHost, has_gather] at h
    obtain ⟨f, hf, hset, hshare⟩ := h
    by_cases hin : f ∈ CFlag.flags
    · exact Bool.false_ne_true ((hc.cflag_csize f hin).symm.trans hshare)
    · have hnot := has_within (has_cleared (c.linCflag x sp) linCmask) (size_lin f hf hin).2
      exact Bool.false_ne_true (hnot.symm.trans hset)
  rw [Consts.backCflag, BitVec.and_or_distrib_right, hflags, BitVec.zero_or,
    within_iff_and.mp (csizeToHost_within hc _), Consts.csizeToHost, (linCflag_parts hc x sp).2.1]
  rcases csize_cases c x with ⟨hzero, hno⟩ | ⟨f, hf, hlin, -, hval⟩
  · rw [hzero, if_neg (by decide), if_neg (by decide), if_neg (by decide)]
    constructor
    · exact fun h => Or.inl h.symm
    · rintro (h | ⟨f, hf, hval⟩)
      · exact h.symm
      · by_contra hne
        exact hno f hf (fun h => hne (by rw [hval, h])) hval
  · rw [hlin]
    refine iff_of_true ?_ (Or.inr ⟨f, hf, hval⟩)
    simp only [List.mem_cons, List.not_mem_nil, or_false] at hf
    rw [hval]
    rcases hf with rfl | rfl | rfl <;> rfl

/-! ### The speed -/

/-- A speed without a Linux code comes back as the first of the table. -/
theorem baud_back (sp : Word) : (∃ b, c.baud b = sp ∧
      c.baudToHost ((c.baudToLinux sp).getD 0#32) = some (c.baud b)) ∨
    (∀ b, c.baud b ≠ sp) ∧ c.baudToHost ((c.baudToLinux sp).getD 0#32) = some (c.baud .b0) := by
  rw [Consts.baudToLinux]
  cases hfind : Baud.all.find? fun b => sp == c.baud b with
  | none =>
    refine Or.inr ⟨fun b hb => ?_, rfl⟩
    have hnot := List.find?_eq_none.mp hfind b b.mem_all
    exact hnot (beq_iff_eq.mpr hb.symm)
  | some b =>
    have hb : sp = c.baud b := by simpa using List.find?_some hfind
    have hback : (Baud.all.find? fun d => b.lin == d.lin) = some b := by
      cases hfind' : Baud.all.find? fun d => b.lin == d.lin with
      | none => exact absurd (beq_self_eq_true _) (List.find?_eq_none.mp hfind' b b.mem_all)
      | some d =>
        have hd : b.lin = d.lin := by simpa using List.find?_some hfind'
        rw [baud_lin_inj b b.mem_all d d.mem_all hd]
    refine Or.inl ⟨b, hb.symm, ?_⟩
    simp only [Option.map_some, Option.getD_some, Consts.baudToHost]
    rw [hback]
    rfl

/-! ### The control characters -/

/-- A character in the Linux encoding, where 0 is a disabled one. -/
def Consts.encode (c : Consts) (x : CC) (b : UInt8) : UInt8 :=
  if b = c.vdisable ∧ x.isCount = false then 0 else b

/-- And in the host's. -/
def Consts.decode (c : Consts) (x : CC) (b : UInt8) : UInt8 :=
  if b = 0 ∧ x.isCount = false then c.vdisable else b

def Consts.linSlot (c : Consts) (n : Nat) (x : CC) : Option (Fin n) :=
  if h : x.lin < n ∧ (c.cc x).toNat < nccs then some ⟨x.lin, h.1⟩ else none

def Consts.hostSlot (c : Consts) (n : Nat) (x : CC) : Option (Fin nccs) :=
  if h : x.lin < n ∧ (c.cc x).toNat < nccs then some ⟨(c.cc x).toNat, h.2⟩ else none

theorem CC.lin_inj : ∀ x ∈ CC.all, ∀ y ∈ CC.all, x.lin = y.lin → x = y := by decide

theorem ccToLinux_eq (host : Fin nccs → UInt8) : (c.ccToLinux host : Fin n → UInt8) =
    Memory.puts (c.linSlot n) (fun x => ((c.hostSlot n x).map fun i => c.encode x (host i)).getD 0)
      CC.all fun _ => 0 := by
  rw [Consts.ccToLinux, Memory.puts]
  congr 1
  funext lin x
  rw [Consts.ccPutLinux, Consts.linSlot, Consts.hostSlot]
  split <;> rfl

theorem ccToHost_eq (lin : Fin n → UInt8) : c.ccToHost lin =
    Memory.puts (c.hostSlot n) (fun x => ((c.linSlot n x).map fun i => c.decode x (lin i)).getD 0)
      CC.all Termios.zero.cc := by
  rw [Consts.ccToHost, Memory.puts]
  congr 1
  funext host x
  rw [Consts.ccPutHost, Consts.linSlot, Consts.hostSlot]
  split <;> rfl

theorem decode_encode_iff (x : CC) (b : UInt8) : c.decode x (c.encode x b) = b ↔
    x.isCount = true ∨ b ≠ 0 ∨ c.vdisable = 0 := by
  cases hcount : x.isCount with
  | true => simp [Consts.encode, Consts.decode, hcount]
  | false =>
    simp only [Consts.encode, Consts.decode, hcount, and_true, Bool.false_eq_true, false_or]
    by_cases hb : b = c.vdisable
    · rw [if_pos hb, if_pos rfl, hb]
      exact iff_of_true rfl (by rw [or_comm]; exact Decidable.em _)
    · rw [if_neg hb]
      by_cases hzero : b = 0
      · rw [if_pos hzero]
        refine iff_of_false (fun h => hb h.symm) ?_
        rintro (h | h)
        · exact h hzero
        · exact hb (hzero.trans h.symm)
      · rw [if_neg hzero]
        exact iff_of_true rfl (Or.inl hzero)

/-- **A control character** goes through if it is not taken for a disabled one. -/
theorem cc_iff (hn : ∀ x : CC, x.lin < n) (i : Fin nccs) :
    c.ccToHost (c.ccToLinux t.cc : Fin n → UInt8) i = t.cc i ↔ c.CcKept t i := by
  have hslot : ∀ x, c.hostSlot n x = some i ↔ (c.cc x).toNat = i := by
    intro x
    rw [Consts.hostSlot]
    split
    · rw [Option.some.injEq, Fin.ext_iff]
    · rename_i h
      refine iff_of_false (by simp) fun hx => h ⟨hn x, ?_⟩
      rw [hx]
      exact i.isLt
  rw [ccToHost_eq, Memory.puts_last, Consts.CcKept, Consts.rowOf]
  simp only [hslot]
  cases hrow : (CC.all.filter fun x => (c.cc x).toNat = i.val).getLast? with
  | none => exact eq_comm
  | some x =>
    have hx : (c.cc x).toNat = i := by
      simpa using List.of_mem_filter (List.mem_of_getLast? hrow)
    have hlt : (c.cc x).toNat < nccs := hx ▸ i.isLt
    have hlin : c.linSlot n x = some ⟨x.lin, hn x⟩ := dif_pos ⟨hn x, hlt⟩
    have hval : (c.ccToLinux t.cc : Fin n → UInt8) ⟨x.lin, hn x⟩ = c.encode x (t.cc i) := by
      rw [ccToLinux_eq, Memory.puts_key x.mem_all hlin, (hslot x).mpr hx]
      · rfl
      · intro y hy hkey
        rw [Consts.linSlot] at hkey
        split at hkey
        · rw [Option.some.injEq, Fin.ext_iff] at hkey
          exact CC.lin_inj y hy x x.mem_all hkey
        · cases hkey
    simp only [Option.elim_some, hlin, Option.map_some, Option.getD_some]
    rw [hval, decode_encode_iff]

/-! ### The whole -/

/-- What comes back, before its speed is set. -/
def Consts.backFlags (c : Consts) (cf : Cf) (n : Nat) (t : Termios) : Termios :=
  { Termios.zero with
    iflag := bitsToHost IFlag.all c.iflag IFlag.lin (bitsToLinux IFlag.all c.iflag IFlag.lin t.iflag)
    oflag := c.backOflag t.oflag
    cflag := c.backCflag (c.linCflag t.cflag (cf.cfgetospeed t))
    lflag := bitsToHost LFlag.all c.lflag LFlag.lin (bitsToLinux LFlag.all c.lflag LFlag.lin t.lflag)
    cc := c.ccToHost (c.ccToLinux t.cc : Fin n → UInt8) }

/-- The speed that is set is the old one, or no speed at all. -/
theorem back_eq (hc : c.Disjoint) : ∃ b,
    c.prefixToHost cf (c.prefixToLinux cf n t) =
      cf.cfsetispeed (cf.cfsetospeed (c.backFlags cf n t) (c.baud b)) (c.baud b) ∧
    (c.baud b = cf.cfgetospeed t ∨ ∀ d, c.baud d ≠ cf.cfgetospeed t) := by
  have hspeed := (linCflag_parts hc t.cflag (cf.cfgetospeed t)).2.2
  have hback : ∀ sp, c.baudToHost ((c.baudToLinux (cf.cfgetospeed t)).getD 0#32) = some sp →
      c.prefixToHost cf (c.prefixToLinux cf n t) =
        cf.cfsetispeed (cf.cfsetospeed (c.backFlags cf n t) sp) sp := by
    intro sp hsp
    rw [← hspeed] at hsp
    rw [Consts.prefixToHost]
    have hword : (c.prefixToLinux cf n t).cflag = c.linCflag t.cflag (cf.cfgetospeed t) := rfl
    simp only [hword, hsp]
    rfl
  rcases baud_back (c := c) (cf.cfgetospeed t) with ⟨b, hb, hset⟩ | ⟨hno, hset⟩
  · exact ⟨b, hback _ hset, Or.inl hb⟩
  · exact ⟨.b0, hback _ hset, Or.inr hno⟩

/-- **Terminal settings** that are read and set again: the flags come back, a size or a delay that
is one of the table's, every character but one that is taken for a disabled one, and a speed
of the table. -/
theorem settings_survive (c : Consts) (cf : Cf) (hc : c.Disjoint) (hcf : c.Stores cf) (n : Nat)
    (hn : n = 19 ∨ n = 32) (t : Termios) :
    c.Survives cf t (c.prefixToHost cf (c.prefixToLinux cf n t)) := by
  have hfits : ∀ x : CC, x.lin < n := by
    intro x
    have hlt : x.lin < 19 := by cases x <;> decide
    omega
  obtain ⟨b, hback, hspeed⟩ := @back_eq c cf t n hc
  rw [hback]
  constructor
  · intro f
    rw [hcf.iflag]
    exact has_bits_all hc.iflag IFlag.lin_apart f.mem_all
  · intro f
    rw [hcf.oflag]
    exact oflag_bits hc t.oflag f
  · intro f hf
    rw [has, hcf.cflag]
    exact cflag_bits hc t.cflag _ f hf
  · intro f
    rw [hcf.lflag]
    exact has_bits_all hc.lflag LFlag.lin_apart f.mem_all
  · rw [hcf.cflag]
    exact csize_iff hc t.cflag _
  · intro g
    rw [hcf.oflag]
    exact delay_iff hc g t.oflag
  · intro i
    rw [hcf.cc]
    exact cc_iff hfits i
  · intro d hd
    have hold : c.baud b = cf.cfgetospeed t := by
      rcases hspeed with hsame | hno
      · exact hsame
      · exact absurd hd (hno d)
    rw [hcf.ospeed, hcf.ispeed]
    exact ⟨hold, hold⟩

end Tables

/-! ### A host -/

/-- Linux's own constants, but for 0xff as a disabled character. -/
def plain : Consts where
  iflagConst := IFlag.lin
  oflagConst := OFlag.lin
  cflag := CFlag.lin
  lflagConst := LFlag.lin
  dlyMask := DlyField.lin
  dly := Dly.lin
  cc x := UInt32.ofNat x.lin
  baudConst := Baud.lin
  vdisable := 255

/-- Speeds in the struct's own fields. -/
def speedFields : Cf where
  cfsetospeed t sp := { t with ospeed := sp }
  cfsetispeed t sp := { t with ispeed := sp }
  cfgetospeed t := t.ospeed
  cfgetispeed t := t.ispeed

theorem fields_of_apart {ι : Type} {k : ι → Word} {ns : List ι}
    (hbit : ∀ n ∈ ns, k n = BitVec.twoPow 32 (k n).toNat.log2)
    (hapart : ∀ m ∈ ns, ∀ n ∈ ns, has (k m) (k n) = true ↔ m = n) : Fields k ns := by
  refine ⟨fun n hn => Or.inr ⟨_, hbit n hn⟩, fun m hm n hn hne => ?_⟩
  exact Bool.eq_false_iff.mpr fun h => hne ((hapart m hm n hn).mp h)

theorem plain_disjoint : plain.Disjoint where
  iflag := fields_of_apart (by decide) (by decide)
  oflag := fields_of_apart (by decide) (by decide)
  cflag := fields_of_apart (by decide) (by decide)
  lflag := fields_of_apart (by decide) (by decide)
  oflag_dly f g := by
    have h : ∀ f ∈ OFlag.all, ∀ g ∈ DlyField.all,
        has (plain.oflag f) (plain.dlyMask g) = false := by decide
    exact h f f.mem_all g g.mem_all
  dly_apart g h := by
    have hall : ∀ g ∈ DlyField.all, ∀ h ∈ DlyField.all, g ≠ h →
        has (plain.dlyMask g) (plain.dlyMask h) = false := by decide
    exact hall g g.mem_all h h.mem_all
  dly_within d := (dly_lin_field d d.mem_all d.field d.field.mem_all).1 rfl
  dly_inj d e _ he _ := (dly_lin_inj d d.mem_all).2 e e.mem_all he
  cflag_csize f hf := (cflag_lin f hf).2.2.1
  csize_within f hf := (size_fields f hf).2.1

theorem speedFields_stores (c : Consts) : c.Stores speedFields :=
  ⟨fun _ _ => rfl, fun _ _ => rfl, fun _ _ => rfl, fun _ _ => rfl, fun _ _ _ => rfl, fun _ _ => rfl,
    fun _ _ => rfl⟩

/-- Eight bits, a delay, and 9600 baud. -/
def tty : Termios := ⟨0x500, 0x1805, 0xB0, 0x8A3B, fun i => if i.val < 17 then 1 else 0, 13, 13⟩

theorem settings_survive_tty : plain.Survives speedFields tty
    (plain.prefixToHost speedFields (plain.prefixToLinux speedFields 19 tty)) :=
  settings_survive plain speedFields plain_disjoint (speedFields_stores _) 19 (Or.inl rfl) tty

/-- The character NUL comes back as a disabled one, and an input speed as the output's. -/
theorem nul_disabled :
    let t := { tty with ispeed := 12#32, cc := fun _ => 0 }
    let t' := plain.prefixToHost speedFields (plain.prefixToLinux speedFields 32 t)
    t.cc ⟨0, by decide⟩ = 0 ∧ t'.cc ⟨0, by decide⟩ = 255 ∧
      speedFields.cfgetispeed t = 12#32 ∧ speedFields.cfgetispeed t' = 13#32 := by
  decide

end ApeShim.Tty
