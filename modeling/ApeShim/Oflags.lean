import ApeShim.Lib.Naming

/-!
The flags of `open` (`shim/open.c`): `oflags_to_host` and `oflags_to_linux`, and the
round trip a program makes through F_GETFL and F_SETFL. The host's constants are any
words at all, with 0 and ~0 for one it does not have.
-/

namespace ApeShim.Oflags
open Flags

inductive Arch
  | x86_64
  | aarch64
  deriving DecidableEq, Repr

/-- The rows of `SHIM_OFLAG_TABLE`. -/
inductive OFlag
  | creat | excl | trunc | append | nonblock | cloexec | directory | nofollow | path | dsync
  | noctty | async | direct | noatime
  deriving DecidableEq, Repr

namespace OFlag

/-- `linux_bit` -/
def lin (a : Arch) : OFlag → BitVec 32
  | creat => 64#32
  | excl => 128#32
  | trunc => 512#32
  | append => 1024#32
  | nonblock => 2048#32
  | cloexec => 524288#32
  | directory => if a = .x86_64 then 65536#32 else 16384#32
  | nofollow => if a = .x86_64 then 131072#32 else 32768#32
  | path => 2097152#32
  | dsync => 4096#32
  | noctty => 256#32
  | async => 8192#32
  | direct => if a = .x86_64 then 16384#32 else 65536#32
  | noatime => 262144#32

def droppable : OFlag → Bool
  | path | noctty | async | direct | noatime => true
  | _ => false

end OFlag

/-- `kOflags`. -/
def kOflags (a : Arch) : Naming OFlag 32 where
  names := [.creat, .excl, .trunc, .append, .nonblock, .cloexec, .directory, .nofollow, .path,
    .dsync, .noctty, .async, .direct, .noatime]
  bit f := (f.lin a).toNat.log2
  complete := by intro f; cases f <;> decide
  bound := by intro f; cases a <;> cases f <;> decide
  inj := by
    intro f g h
    cases a <;> cases f <;> cases g <;> first | rfl | exact absurd h (by decide)

/-- `LIN_O_ACCMODE` -/
def accmode : BitVec 32 := 3#32

/-- `SHIM_LIN_O_LARGEFILE` -/
def linLargefile (a : Arch) : BitVec 32 := if a = .x86_64 then 32768#32 else 131072#32

/-- `SHIM_LIN_O_SYNC` -/
def linSync : BitVec 32 := 1052672#32

/-- `SHIM_LIN_O_TMPFILE` -/
def linTmpfile (a : Arch) : BitVec 32 := if a = .x86_64 then 4259840#32 else 4210688#32

structure Host where
  arch : Arch
  /-- `IsLinux() || IsWindows()` -/
  emulatesTmpfile : Bool
  /-- `_O_TMPFILE | O_DIRECTORY`, or the older `O_TMPFILE` -/
  tmpfile : BitVec 32
  /-- `O_SYNC` -/
  sync : BitVec 32
  const : OFlag → BitVec 32

def unsupported (b : BitVec 32) : Bool := b == 0#32 || b == BitVec.allOnes 32

/-- `(host & c) == c` -/
def holds (host c : BitVec 32) : Bool := host &&& c == c

inductive OErr
  | eopnotsupp
  | einval
  deriving DecidableEq, Repr

namespace Host

variable (H : Host)

/-- The loop of `oflags_to_host`: what is left of the Linux flags, and the host's so far. -/
def flagLoop : List OFlag → BitVec 32 → BitVec 32 → Except OErr (BitVec 32 × BitVec 32)
  | [], lin, host => .ok (lin, host)
  | f :: fs, lin, host =>
      if has lin (f.lin H.arch) = false then flagLoop fs lin host
      else
        let lin := lin &&& ~~~f.lin H.arch
        if unsupported (H.const f) = false then flagLoop fs lin (host ||| H.const f)
        else if f.droppable = false then .error .eopnotsupp
        else flagLoop fs lin host

def syncToHost (lin host : BitVec 32) : Except OErr (BitVec 32 × BitVec 32) :=
  if holds lin linSync then
    if unsupported H.sync then .error .eopnotsupp
    else .ok (lin &&& ~~~linSync, host ||| H.sync)
  else .ok (lin, host)

def tmpfileToHost (lin host : BitVec 32) : Except OErr (BitVec 32 × BitVec 32) :=
  if holds lin (linTmpfile H.arch) then
    if H.emulatesTmpfile = false then .error .eopnotsupp
    else .ok (lin &&& ~~~linTmpfile H.arch, host ||| H.tmpfile)
  else .ok (lin, host)

/-- `oflags_to_host`. -/
def oflagsToHost (lin : BitVec 32) : Except OErr (BitVec 32) := do
  let host := lin &&& accmode
  let lin := lin &&& ~~~accmode
  let lin := lin &&& ~~~linLargefile H.arch
  let (lin, host) ← H.syncToHost lin host
  let (lin, host) ← H.tmpfileToHost lin host
  let (lin, host) ← H.flagLoop (kOflags H.arch).names lin host
  if lin ≠ 0#32 then .error .einval else .ok host

/-- The host has O_SYNC and the word contains it. -/
def syncIn (host : BitVec 32) : Bool := !unsupported H.sync && holds host H.sync

/-- A row that `oflags_to_linux` reports of what O_SYNC left. -/
def reads (host : BitVec 32) (f : OFlag) : Bool :=
  !unsupported (H.const f) && holds host (H.const f)

/-- `oflags_to_linux`. -/
def oflagsToLinux (host : BitVec 32) : BitVec 32 :=
  let lin := host &&& accmode
  let lin := raise (H.syncIn host) linSync lin
  let host := if H.syncIn host then host &&& ~~~H.sync else host
  (kOflags H.arch).names.foldl (fun lin f => raise (H.reads host f) (f.lin H.arch) lin) lin

/-- F_GETFL, when the kernel's `fcntl` returned this. -/
def getfl (host : BitVec 32) : BitVec 32 := if host.msb then host else H.oflagsToLinux host

/-- The word F_SETFL hands to the kernel. -/
def setfl (lin : BitVec 32) : Except OErr (BitVec 32) := H.oflagsToHost (lin &&& ~~~accmode)

end Host

/-! ## Bits -/

theorem flag_eq (a : Arch) (f : OFlag) : (kOflags a).flag f = f.lin a := by
  cases a <;> cases f <;> decide

theorem lin_bit {a : Arch} {f : OFlag} {i : Nat} :
    (f.lin a).getLsbD i = true ↔ (kOflags a).bit f = i := by
  rw [← flag_eq, Naming.flag, BitVec.getLsbD_twoPow, Bool.and_eq_true, decide_eq_true_eq,
    decide_eq_true_eq]
  constructor
  · rintro ⟨-, h⟩
    exact h
  · intro h
    exact ⟨(kOflags a).bound f, h⟩

/-- No row has a bit of what is handled out of line, but for O_DSYNC in O_SYNC. -/
theorem bit_apart (a : Arch) (f : OFlag) :
    accmode.getLsbD ((kOflags a).bit f) = false ∧ (kOflags a).bit f ≠ 20 ∧
      (kOflags a).bit f ≠ 22 ∧ (linLargefile a).getLsbD ((kOflags a).bit f) = false ∧
      (linSync.getLsbD ((kOflags a).bit f) = true ↔ f = .dsync) := by
  cases a <;> cases f <;> decide

theorem linSync_bit {i : Nat} (h : linSync.getLsbD i = true) : i = 12 ∨ i = 20 := by
  have hi := BitVec.lt_of_getLsbD h
  revert h
  revert i
  decide

theorem holds_iff {x c : BitVec 32} : holds x c = true ↔ within c x = true := by
  rw [within_iff, holds, beq_iff_eq]
  constructor
  · intro h i hc
    rw [← h] at hc
    simp only [BitVec.getLsbD_and, Bool.and_eq_true] at hc
    exact hc.1
  · intro h
    refine BitVec.eq_of_getLsbD_eq fun i _ => ?_
    cases hc : c.getLsbD i with
    | false => simp [hc]
    | true => simp [hc, h i hc]

theorem clear_bit {x m : BitVec 32} {i : Nat} :
    (x &&& ~~~m).getLsbD i = true ↔ x.getLsbD i = true ∧ m.getLsbD i = false := by
  rw [BitVec.getLsbD_and, BitVec.getLsbD_not, Bool.and_eq_true, Bool.and_eq_true,
    Bool.not_eq_true', decide_eq_true_eq]
  constructor
  · rintro ⟨hx, -, hm⟩
    exact ⟨hx, hm⟩
  · rintro ⟨hx, hm⟩
    exact ⟨hx, BitVec.lt_of_getLsbD hx, hm⟩

/-- Clearing what is not there. -/
theorem clear_eq_self {x m : BitVec 32} (h : has x m = false) : x &&& ~~~m = x := by
  refine BitVec.eq_of_getLsbD_eq fun i _ => Bool.eq_iff_iff.mpr ?_
  rw [clear_bit]
  exact and_iff_left_of_imp (has_eq_false_iff.mp h i)

theorem raise_bit {b : Bool} {m e : BitVec 32} {i : Nat} :
    (raise b m e).getLsbD i = true ↔ e.getLsbD i = true ∨ b = true ∧ m.getLsbD i = true := by
  cases b <;> simp [raise]

theorem foldl_raise_bit (x : OFlag → Bool) (m : OFlag → BitVec 32) (fs : List OFlag)
    (e : BitVec 32) (i : Nat) :
    (fs.foldl (fun e f => raise (x f) (m f) e) e).getLsbD i = true ↔
      e.getLsbD i = true ∨ ∃ f ∈ fs, x f = true ∧ (m f).getLsbD i = true := by
  induction fs generalizing e with
  | nil => simp
  | cons f fs ih =>
    rw [List.foldl_cons, ih, raise_bit]
    simp only [List.mem_cons, exists_eq_or_imp]
    exact or_assoc

theorem foldl_clear_bit (m : OFlag → BitVec 32) (fs : List OFlag) (e : BitVec 32) (i : Nat) :
    (fs.foldl (fun e f => e &&& ~~~m f) e).getLsbD i = true ↔
      e.getLsbD i = true ∧ ∀ f ∈ fs, (m f).getLsbD i = false := by
  induction fs generalizing e with
  | nil => simp
  | cons f fs ih =>
    rw [List.foldl_cons, ih, clear_bit]
    simp only [List.mem_cons, forall_eq_or_imp]
    exact and_assoc

namespace Host

variable (H : Host)

/-! ## From the host's flags to Linux flags -/

/-- What O_SYNC leaves of the word. -/
def rest (host : BitVec 32) : BitVec 32 :=
  if H.syncIn host then host &&& ~~~H.sync else host

theorem oflagsToLinux_bit {host : BitVec 32} {i : Nat} :
    (H.oflagsToLinux host).getLsbD i = true ↔
      ((host &&& accmode).getLsbD i = true ∨ H.syncIn host = true ∧ linSync.getLsbD i = true) ∨
        ∃ f, H.reads (H.rest host) f = true ∧ (kOflags H.arch).bit f = i := by
  rw [oflagsToLinux]
  simp only [foldl_raise_bit, raise_bit, lin_bit, (kOflags H.arch).complete, true_and]
  rfl

/-- The rows F_GETFL reports on their own: next to O_SYNC, O_DSYNC cannot be told. -/
def kept (host : BitVec 32) (f : OFlag) : Bool :=
  H.reads (H.rest host) f && !(H.syncIn host && f == .dsync)

theorem kept_iff {host : BitVec 32} {f : OFlag} :
    H.kept host f = true ↔
      H.reads (H.rest host) f = true ∧ ¬ (H.syncIn host = true ∧ f = .dsync) := by
  simp only [kept, Bool.and_eq_true, Bool.not_eq_true', Bool.and_eq_false_iff, beq_eq_false_iff_ne,
    not_and_or, Bool.not_eq_true, ne_eq]

theorem rest_within (host : BitVec 32) : within (H.rest host) host = true := by
  rw [within_iff]
  intro i hi
  unfold rest at hi
  split at hi
  · exact (clear_bit.mp hi).1
  · exact hi

/-- The flags F_SETFL gets, without the access mode. -/
theorem setfl_bit {host : BitVec 32} {i : Nat} :
    (H.oflagsToLinux host &&& ~~~accmode &&& ~~~accmode &&& ~~~linLargefile H.arch).getLsbD i = true ↔
      (H.syncIn host = true ∧ linSync.getLsbD i = true) ∨
        ∃ f, H.kept host f = true ∧ (kOflags H.arch).bit f = i := by
  have hsync : ∀ i, linSync.getLsbD i = true →
      accmode.getLsbD i = false ∧ (linLargefile H.arch).getLsbD i = false := by
    intro i hi
    rcases linSync_bit hi with rfl | rfl <;> cases H.arch <;> decide
  simp only [clear_bit, oflagsToLinux_bit, kept_iff]
  constructor
  · rintro ⟨⟨⟨(⟨h | h⟩ | ⟨f, hf, rfl⟩), hacc⟩, -⟩, -⟩
    · simp [hacc] at h
    · exact Or.inl h
    · by_cases hd : H.syncIn host = true ∧ f = .dsync
      · exact Or.inl ⟨hd.1, (bit_apart H.arch f).2.2.2.2.mpr hd.2⟩
      · exact Or.inr ⟨f, ⟨hf, hd⟩, rfl⟩
  · rintro (h | ⟨f, ⟨hf, -⟩, rfl⟩)
    · obtain ⟨hacc, hlarge⟩ := hsync i h.2
      exact ⟨⟨⟨Or.inl (Or.inr h), hacc⟩, hacc⟩, hlarge⟩
    · obtain ⟨hacc, -, -, hlarge, -⟩ := bit_apart H.arch f
      exact ⟨⟨⟨Or.inr ⟨f, hf, rfl⟩, hacc⟩, hacc⟩, hlarge⟩

/-! ## And back -/

variable {H} in
/-- A row whose bit is set is taken, if the host has every such row. -/
theorem flagLoop_ok {fs : List OFlag} {lin host : BitVec 32} (hfs : fs.Nodup)
    (hsup : ∀ f ∈ fs, has lin (f.lin H.arch) = true → unsupported (H.const f) = false) :
    H.flagLoop fs lin host = .ok (fs.foldl (fun l f => l &&& ~~~f.lin H.arch) lin,
      fs.foldl (fun e f => raise (has lin (f.lin H.arch)) (H.const f) e) host) := by
  induction fs generalizing lin host with
  | nil => rfl
  | cons f fs ih =>
    obtain ⟨hf, hfs⟩ := List.nodup_cons.mp hfs
    have hrest : ∀ g ∈ fs, has lin (g.lin H.arch) = true → unsupported (H.const g) = false :=
      fun g hg => hsup g (List.mem_cons_of_mem f hg)
    cases hhas : has lin (f.lin H.arch) with
    | false =>
      rw [flagLoop, if_pos hhas, ih hfs hrest, List.foldl_cons, List.foldl_cons,
        clear_eq_self hhas, hhas]
      rfl
    | true =>
      -- the other rows have other bits
      have hother : ∀ g ∈ fs, has (lin &&& ~~~f.lin H.arch) (g.lin H.arch) = has lin (g.lin H.arch) := by
        intro g hg
        apply has_clear
        rw [← flag_eq, ← flag_eq, ← Bool.not_eq_true, Naming.has_flag_flag]
        rintro rfl
        exact hf hg
      rw [flagLoop, if_neg (by simp [hhas])]
      simp only [if_pos (hsup f List.mem_cons_self hhas)]
      rw [ih hfs (fun g hg h => hrest g hg (hother g hg ▸ h)), List.foldl_cons, List.foldl_cons, hhas]
      congr 2
      refine List.foldl_ext _ _ _ fun e g hg => ?_
      rw [hother g hg]

/-- The flags that are left to the table. -/
structure Rows (host lin : BitVec 32) : Prop where
  bits : ∀ i, lin.getLsbD i = true ↔ ∃ f, H.kept host f = true ∧ (kOflags H.arch).bit f = i

variable {H}

theorem Rows.has_iff {host lin : BitVec 32} (h : H.Rows host lin) (f : OFlag) :
    has lin (f.lin H.arch) = true ↔ H.kept host f = true := by
  rw [← flag_eq, Naming.has_flag, h.bits]
  constructor
  · rintro ⟨g, hg, hbit⟩
    rw [← (kOflags H.arch).inj hbit]
    exact hg
  · intro hf
    exact ⟨f, hf, rfl⟩

theorem sync_stage (host : BitVec 32) :
    ∃ lin, H.syncToHost (H.oflagsToLinux host &&& ~~~accmode &&& ~~~accmode &&&
        ~~~linLargefile H.arch) 0#32 = .ok (lin, raise (H.syncIn host) H.sync 0#32) ∧
      H.Rows host lin := by
  have hbit := @setfl_bit H host
  cases hs : H.syncIn host with
  | true =>
    have hholds : holds (H.oflagsToLinux host &&& ~~~accmode &&& ~~~accmode &&&
        ~~~linLargefile H.arch) linSync = true :=
      holds_iff.mpr (within_iff.mpr fun i hi => hbit.mpr (Or.inl ⟨hs, hi⟩))
    have hsup : unsupported H.sync = false := by
      simp only [syncIn, Bool.and_eq_true, Bool.not_eq_true'] at hs
      exact hs.1
    refine ⟨_, by rw [syncToHost, if_pos hholds, if_neg (by simp [hsup])]; rfl, ⟨fun i => ?_⟩⟩
    rw [clear_bit, hbit]
    constructor
    · rintro ⟨⟨-, h⟩ | h, hno⟩
      · rw [h] at hno
        cases hno
      · exact h
    · rintro ⟨f, hf, rfl⟩
      refine ⟨Or.inr ⟨f, hf, rfl⟩, ?_⟩
      rw [← Bool.not_eq_true, (bit_apart H.arch f).2.2.2.2]
      intro hd
      exact (H.kept_iff.mp hf).2 ⟨hs, hd⟩
  | false =>
    have hrows : H.Rows host (H.oflagsToLinux host &&& ~~~accmode &&& ~~~accmode &&&
        ~~~linLargefile H.arch) := by
      constructor
      intro i
      rw [hbit, hs]
      simp
    have hholds : ¬ holds (H.oflagsToLinux host &&& ~~~accmode &&& ~~~accmode &&&
        ~~~linLargefile H.arch) linSync = true := by
      rw [holds_iff, within_iff]
      intro h
      obtain ⟨f, -, hf⟩ := (hrows.bits 20).mp (h 20 (by decide))
      exact (bit_apart H.arch f).2.1 hf
    exact ⟨_, by rw [syncToHost, if_neg hholds]; rfl, hrows⟩

theorem Rows.tmpfile {host lin : BitVec 32} (h : H.Rows host lin) (out : BitVec 32) :
    H.tmpfileToHost lin out = .ok (lin, out) := by
  have hholds : ¬ holds lin (linTmpfile H.arch) = true := by
    rw [holds_iff, within_iff]
    intro hw
    obtain ⟨f, -, hf⟩ := (h.bits 22).mp (hw 22 (by cases H.arch <;> decide))
    exact (bit_apart H.arch f).2.2.1 hf
  rw [tmpfileToHost, if_neg hholds]

theorem reads_supported {host : BitVec 32} {f : OFlag} (h : H.reads host f = true) :
    unsupported (H.const f) = false := by
  simp only [reads, Bool.and_eq_true, Bool.not_eq_true'] at h
  exact h.1

theorem Rows.loop {host lin : BitVec 32} (h : H.Rows host lin) (out : BitVec 32) :
    H.flagLoop (kOflags H.arch).names lin out = .ok (0#32,
      (kOflags H.arch).names.foldl (fun e f => raise (H.kept host f) (H.const f) e) out) := by
  have hleft : (kOflags H.arch).names.foldl (fun l f => l &&& ~~~f.lin H.arch) lin = 0#32 := by
    refine BitVec.eq_of_getLsbD_eq fun i _ => ?_
    rw [BitVec.getLsbD_zero, ← Bool.not_eq_true, foldl_clear_bit]
    rintro ⟨hi, hclear⟩
    obtain ⟨f, -, rfl⟩ := (h.bits i).mp hi
    have := hclear f ((kOflags H.arch).complete f)
    rw [lin_bit.mpr rfl] at this
    cases this
  rw [flagLoop_ok (by cases H.arch <;> decide) fun f _ hf =>
    reads_supported (H.kept_iff.mp ((h.has_iff f).mp hf)).1, hleft]
  congr 2
  refine List.foldl_ext _ _ _ fun e f _ => ?_
  rw [Bool.eq_iff_iff.mpr (h.has_iff f)]

/-- **What F_SETFL sets** of what F_GETFL reported: O_SYNC and the kept rows. -/
structure Sets (H : Host) (host r : BitVec 32) : Prop where
  bits : ∀ i, r.getLsbD i = true ↔ (H.syncIn host = true ∧ H.sync.getLsbD i = true) ∨
    ∃ f, H.kept host f = true ∧ (H.const f).getLsbD i = true

theorem setfl_oflagsToLinux (H : Host) (host : BitVec 32) :
    ∃ r, H.setfl (H.oflagsToLinux host) = .ok r ∧ H.Sets host r := by
  obtain ⟨lin, hsync, hrows⟩ := @sync_stage H host
  have hzero : H.oflagsToLinux host &&& ~~~accmode &&& accmode = 0#32 := by
    refine BitVec.eq_of_getLsbD_eq fun i _ => ?_
    rw [BitVec.getLsbD_zero, ← Bool.not_eq_true, BitVec.getLsbD_and, Bool.and_eq_true, clear_bit]
    rintro ⟨⟨-, h⟩, h'⟩
    rw [h] at h'
    cases h'
  refine ⟨(kOflags H.arch).names.foldl (fun e f => raise (H.kept host f) (H.const f) e)
    (raise (H.syncIn host) H.sync 0#32), ?_, ⟨fun i => ?_⟩⟩
  · rw [setfl, oflagsToHost, hzero]
    simp only [hsync, hrows.tmpfile, hrows.loop, bind, Except.bind]
    exact if_neg (by simp)
  · rw [foldl_raise_bit, raise_bit]
    simp [(kOflags H.arch).complete]

/-! ## The round trip -/

theorem syncIn_iff {host : BitVec 32} : H.syncIn host = true ↔
    unsupported H.sync = false ∧ within H.sync host = true := by
  rw [syncIn, Bool.and_eq_true, Bool.not_eq_true', holds_iff]

theorem reads_iff {host : BitVec 32} {f : OFlag} : H.reads host f = true ↔
    unsupported (H.const f) = false ∧ within (H.const f) host = true := by
  rw [reads, Bool.and_eq_true, Bool.not_eq_true', holds_iff]

/-- Only an unsupported constant is contained without being there. -/
theorem within_of_unsupported {c host r : BitVec 32} (hc : unsupported c = true)
    (hhost : host.msb = false) (hin : within c host = true) : within c r = true := by
  simp only [unsupported, Bool.or_eq_true, beq_iff_eq] at hc
  rcases hc with rfl | rfl
  · exact within_iff.mpr fun i hi => by simp at hi
  · have := within_iff.mp hin 31 (by decide)
    rw [BitVec.msb_eq_getLsbD_last] at hhost
    rw [hhost] at this
    cases this

namespace Sets

variable {host r : BitVec 32} (h : H.Sets host r)

include h

theorem within_host : within r host = true := by
  refine within_iff.mpr fun i hi => ?_
  rcases (h.bits i).mp hi with ⟨hs, hi⟩ | ⟨f, hf, hi⟩
  · exact within_iff.mp (syncIn_iff.mp hs).2 i hi
  · have hread := (reads_iff.mp (H.kept_iff.mp hf).1).2
    exact within_iff.mp (H.rest_within host) i (within_iff.mp hread i hi)

theorem sync_within (hs : H.syncIn host = true) : within H.sync r = true :=
  within_iff.mpr fun i hi => (h.bits i).mpr (Or.inl ⟨hs, hi⟩)

theorem kept_within {f : OFlag} (hf : H.kept host f = true) : within (H.const f) r = true :=
  within_iff.mpr fun i hi => (h.bits i).mpr (Or.inr ⟨f, hf, hi⟩)

theorem syncIn_eq : H.syncIn r = H.syncIn host := by
  rw [Bool.eq_iff_iff]
  constructor
  · intro hs
    obtain ⟨hsup, hin⟩ := syncIn_iff.mp hs
    exact syncIn_iff.mpr ⟨hsup, within_trans hin h.within_host⟩
  · intro hs
    exact syncIn_iff.mpr ⟨(syncIn_iff.mp hs).1, h.sync_within hs⟩

/-- The rows that are read back are those that were kept. -/
theorem kept_eq (f : OFlag) : H.kept r f = H.kept host f := by
  rw [Bool.eq_iff_iff, kept_iff, kept_iff, h.syncIn_eq]
  refine and_congr_left fun hno => ?_
  rw [reads_iff, reads_iff]
  refine and_congr_right fun hsup => ?_
  simp only [within_iff, rest, h.syncIn_eq]
  cases hs : H.syncIn host with
  | false =>
    simp only [Bool.false_eq_true, if_false]
    rw [← within_iff, ← within_iff]
    constructor
    · intro hin
      exact within_trans hin h.within_host
    · intro hin
      refine h.kept_within (H.kept_iff.mpr ⟨reads_iff.mpr ⟨hsup, ?_⟩, hno⟩)
      rwa [rest, hs]
  | true =>
    simp only [if_true, clear_bit]
    constructor
    · intro hin i hi
      exact ⟨within_iff.mp h.within_host i (hin i hi).1, (hin i hi).2⟩
    · intro hin
      have hkept : H.kept host f = true := by
        refine H.kept_iff.mpr ⟨reads_iff.mpr ⟨hsup, within_iff.mpr fun i hi => ?_⟩, hno⟩
        rw [rest, hs, if_pos rfl]
        exact clear_bit.mpr (hin i hi)
      exact fun i hi => ⟨within_iff.mp (h.kept_within hkept) i hi, (hin i hi).2⟩

/-- A constant is lost only next to O_SYNC. -/
theorem row_within (hhost : host.msb = false) {f : OFlag} (hin : within (H.const f) host = true) :
    within (H.const f) r = true ∨
      H.syncIn host = true ∧ (f = .dsync ∨ has (H.const f) H.sync = true) := by
  by_cases hlost : H.syncIn host = true ∧ (f = .dsync ∨ has (H.const f) H.sync = true)
  · exact Or.inr hlost
  left
  cases hsup : unsupported (H.const f) with
  | true => exact within_of_unsupported hsup hhost hin
  | false =>
    refine h.kept_within (H.kept_iff.mpr ⟨reads_iff.mpr ⟨hsup, ?_⟩, fun hd => hlost ⟨hd.1, Or.inl hd.2⟩⟩)
    unfold rest
    split
    · rename_i hs
      have hapart : has (H.const f) H.sync = false := by
        rw [← Bool.not_eq_true]
        exact fun hc => hlost ⟨hs, Or.inr hc⟩
      refine within_iff.mpr fun i hi => clear_bit.mpr ⟨within_iff.mp hin i hi, ?_⟩
      exact has_eq_false_iff.mp hapart i hi
    · exact hin

theorem linux_eq : H.oflagsToLinux r &&& ~~~accmode = H.oflagsToLinux host &&& ~~~accmode := by
  have hbits : ∀ (x : BitVec 32) (i : Nat), (H.oflagsToLinux x &&& ~~~accmode).getLsbD i = true ↔
      ((H.syncIn x = true ∧ linSync.getLsbD i = true) ∨
        ∃ f, H.kept x f = true ∧ (kOflags H.arch).bit f = i) ∧ accmode.getLsbD i = false := by
    intro x i
    rw [clear_bit, oflagsToLinux_bit]
    refine and_congr_left fun hacc => ?_
    rw [BitVec.getLsbD_and, hacc, Bool.and_false]
    simp only [Bool.false_eq_true, false_or, kept_iff]
    constructor
    · rintro (hs | ⟨f, hf, rfl⟩)
      · exact Or.inl hs
      · by_cases hd : H.syncIn x = true ∧ f = .dsync
        · exact Or.inl ⟨hd.1, (bit_apart H.arch f).2.2.2.2.mpr hd.2⟩
        · exact Or.inr ⟨f, ⟨hf, hd⟩, rfl⟩
    · rintro (hs | ⟨f, ⟨hf, -⟩, rfl⟩)
      · exact Or.inl hs
      · exact Or.inr ⟨f, hf, rfl⟩
  refine BitVec.eq_of_getLsbD_eq fun i _ => Bool.eq_iff_iff.mpr ?_
  rw [hbits, hbits, h.syncIn_eq]
  simp only [h.kept_eq]

end Sets

/-- F_GETFL and then F_SETFL with what it reported, for one word of the kernel. -/
def Trip (H : Host) (lost : OFlag → Prop) (host : BitVec 32) : Prop :=
  ∃ r, H.setfl (H.getfl host) = .ok r ∧ within r host = true ∧
    (within H.sync host = true → within H.sync r = true) ∧
    (∀ f, within (H.const f) host = true → within (H.const f) r = true ∨ lost f) ∧
    H.getfl r &&& ~~~accmode = H.getfl host &&& ~~~accmode

end Host

/-- **F_GETFL and F_SETFL.** What was reported can be set again: nothing the kernel did not
say is set, O_SYNC and every constant are kept, and the same flags are reported. Where the
word has O_SYNC, O_DSYNC and a constant that shares a bit with O_SYNC may be lost. -/
theorem flags_round_trip (H : Host) (host : BitVec 32) (hhost : host.msb = false) :
    H.Trip (fun f => H.syncIn host = true ∧ (f = .dsync ∨ has (H.const f) H.sync = true)) host := by
  obtain ⟨r, hr, h⟩ := H.setfl_oflagsToLinux host
  have hmsb : r.msb = false := by
    rw [BitVec.msb_eq_getLsbD_last] at hhost ⊢
    rw [← Bool.not_eq_true] at hhost ⊢
    exact fun hi => hhost (within_iff.mp h.within_host _ hi)
  have hget : H.getfl host = H.oflagsToLinux host := by simp [Host.getfl, hhost]
  refine ⟨r, by rwa [hget], h.within_host, ?_, fun f => h.row_within hhost, ?_⟩
  · intro hin
    cases hsup : unsupported H.sync with
    | true => exact Host.within_of_unsupported hsup hhost hin
    | false => exact h.sync_within (Host.syncIn_iff.mpr ⟨hsup, hin⟩)
  · rw [hget, Host.getfl, hmsb]
    exact h.linux_eq

/-- macOS. -/
def xnu : Host where
  arch := .aarch64
  emulatesTmpfile := false
  tmpfile := BitVec.allOnes 32
  sync := 0x80#32
  const
    | .creat => 0x200#32
    | .excl => 0x800#32
    | .trunc => 0x400#32
    | .append => 0x8#32
    | .nonblock => 0x4#32
    | .cloexec => 0x1000000#32
    | .directory => 0x100000#32
    | .nofollow => 0x100#32
    | .path => BitVec.allOnes 32
    | .dsync => 0x400000#32
    | .noctty => 0x20000#32
    | .async => 0x40#32
    | .direct => BitVec.allOnes 32
    | .noatime => 0#32

theorem flags_round_trip_nonblock :
    (0x4000c6#32 : BitVec 32).msb = false ∧
      xnu.Trip (fun f => xnu.syncIn 0x4000c6#32 = true ∧ (f = .dsync ∨ has (xnu.const f) xnu.sync = true))
        0x4000c6#32 :=
  ⟨by decide, flags_round_trip xnu 0x4000c6#32 (by decide)⟩

/-- O_APPEND shares a bit with O_SYNC. -/
def overlapping : Host :=
  { xnu with sync := 0x30#32, const := Function.update xnu.const .append 0x18#32 }

/-- A file opened with O_SYNC and O_DSYNC, which macOS keeps apart: setting what was
reported takes back O_DSYNC. A constant that shares a bit with O_SYNC is lost as well. -/
theorem constants_lost :
    ¬ xnu.Trip (fun _ => False) 0x400080#32 ∧ ¬ overlapping.Trip (fun f => f = .dsync) 0x38#32 := by
  constructor
  · rintro ⟨r, hr, -, -, hrows, -⟩
    have hset : xnu.setfl (xnu.getfl 0x400080#32) = .ok 0x80#32 := by decide
    rw [hset] at hr
    cases hr
    rcases hrows .dsync (by decide) with hin | hlost
    · exact absurd hin (by decide)
    · exact hlost
  · rintro ⟨r, hr, -, -, hrows, -⟩
    have hset : overlapping.setfl (overlapping.getfl 0x38#32) = .ok 0x30#32 := by decide
    rw [hset] at hr
    cases hr
    rcases hrows .append (by decide) with hin | hlost
    · exact absurd hin (by decide)
    · cases hlost

end ApeShim.Oflags
