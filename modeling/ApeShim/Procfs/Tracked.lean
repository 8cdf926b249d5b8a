import ApeShim.Lib.Replay
import ApeShim.Lib.Slots
import ApeShim.Procfs.Virtual

/-!
The directory descriptors of /proc (`shim/procfs/core/open.c`): each is remembered under its
virtual path when it is handed out, and forgotten by some of the ways to close it.
-/

namespace ApeShim.Procfs.Tracked
open Replay

/-! ## Descriptors and entries -/

/-- `kFdEmpty`, `kFdFile`, `kFdReserved`, and the rest. -/
inductive FdKind
  | empty | file | reserved | other
  deriving DecidableEq, Repr

/-- A descriptor number: `used` is what the kernel says, the rest is `g_fds`. -/
structure Fd where
  used : Bool
  kind : FdKind
  handle : Nat
  deriving DecidableEq, Repr

/-- `struct trackfd`; the number is that of its slot. -/
structure Entry where
  handle : Nat
  vpath : Text
  short : vpath.length < 200

/-- What `track_put` writes: the path is cut to its buffer. -/
def Entry.of (handle : Nat) (vpath : Text) : Entry :=
  ⟨handle, vpath.take 199, (List.length_take_le _ _).trans_lt (Nat.lt_succ_self 199)⟩

structure State where
  fds : Nat → Fd
  /-- `g_track` -/
  table : List (Option (Nat × Entry))
  /-- the directory of the tree that is open under a number, by the path it was opened by -/
  dir : Nat → Option Text

def init : State := ⟨fun _ => ⟨false, .empty, 0⟩, List.replicate 256 none, fun _ => none⟩

/-- `track_put` -/
def State.trackPut (s : State) (fd : Nat) (vpath : Text) : State :=
  { s with table := Slots.put s.table fd (.of (s.fds fd).handle vpath) }

/-- The entry belongs to what is open now. -/
def Fd.matches (f : Fd) (e : Entry) : Bool :=
  if f.kind = .file then f.handle = e.handle else f.kind = .reserved && e.handle = 0

/-- `pc_track_get` -/
def State.trackGet (s : State) (fd : Nat) : Option Entry :=
  (Slots.lookup s.table fd).filter (s.fds fd).matches

/-- `__ape_shim_procfs_fd_closed` -/
def State.fdClosed (s : State) (fd : Nat) : State := { s with table := Slots.drop s.table fd }

/-- The path names a directory of the tree. -/
def treeDir (h : Host) (vpath : Text) : Bool :=
  (procSub vpath).any fun sub => h.isDirNode (h.pcParse sub)

/-- `__ape_shim_procfs_track` -/
def State.track (s : State) (h : Host) (fd : Nat) (vpath : Text) : State :=
  if treeDir h vpath then s.trackPut fd vpath else s

/-- `__ape_shim_procfs_fd_vpath` -/
def State.fdVpath (s : State) (fd : Nat) (outsz : Nat) : Option Text :=
  (s.trackGet fd).map fun e => e.vpath.take (outsz - 1)

def hasDots (rel : Text) : Bool := (rel.splitOn '/').any fun c => c = ".".toList || c = "..".toList

/-- `__ape_shim_procfs_join` -/
def State.join (s : State) (fd : Nat) (rel : Text) (outsz : Nat) : Option Text :=
  if rel = [] ∨ rel.head? = some '/' then none
  else
    (s.trackGet fd).bind fun e =>
      if hasDots rel then none
      else if (Procfs.join e.vpath rel).length < outsz then some (Procfs.join e.vpath rel)
      else none

/-! ## Opening and closing -/

inductive Op
  /-- `__ape_shim_opendir` of a directory that is listed from memory -/
  | opendir (h : Host) (fd : Nat) (path : Text)
  /-- `__ape_shim_procfs_open` of a directory, where there is none on disk -/
  | openDir (h : Host) (fd : Nat) (path : Text)
  /-- a content file -/
  | content (fd : Nat)
  /-- an open that the host answers, for a path of its own or a virtual one -/
  | hostOpen (h : Host) (fd handle : Nat) (isDir : Bool) (vpath : Option Text)
  /-- a socket, a pipe or a console -/
  | otherOpen (fd : Nat)
  | close (fd : Nat)

def Op.fd : Op → Nat
  | .opendir _ fd _ | .openDir _ fd _ | .content fd | .hostOpen _ fd _ _ _ | .otherOpen fd | .close fd => fd

/-- The slot of a memory descriptor, after `memfd_open`. -/
def memory : Fd := ⟨true, .reserved, 0⟩

/-- The slot of an ordinary file: the memory-only host keeps none. -/
def ordinary (nt : Bool) (handle : Nat) : Fd := if nt then ⟨true, .file, handle⟩ else ⟨true, .empty, 0⟩

def State.place (s : State) (fd : Nat) (f : Fd) (dir : Option Text) : State :=
  { s with fds := Function.update s.fds fd f, dir := Function.update s.dir fd dir }

/-- `close`, with `sys_close_nt` on NT: a reserved slot is released with its text, and nothing
else is done for it. -/
def State.close (s : State) (nt : Bool) (fd : Nat) : State :=
  let s := if nt = false ∨ (s.fds fd).kind = .file then s.fdClosed fd else s
  s.place fd ⟨false, .empty, 0⟩ none

def step (nt : Bool) (s : State) : Op → State × Unit
  | .opendir h fd path =>
    ((s.place fd memory (if treeDir h path then some path else none)).track h fd path, ())
  | .openDir h fd path =>
    let s := s.place fd memory (if treeDir h path then some path else none)
    (if procSub path = none then s else s.trackPut fd path, ())
  | .content fd => (s.place fd memory none, ())
  | .hostOpen h fd handle isDir vpath =>
    let s := s.place fd (ordinary nt handle) (if isDir then vpath.filter (treeDir h) else none)
    (vpath.elim s (s.track h fd), ())
  | .otherOpen fd => (s.place fd ⟨true, .other, 0⟩ none, ())
  | .close fd => (s.close nt fd, ())

/-- A number that is not in use is handed out; a file has a handle; and directories of memory
are what the tree lists, those of /sys on the memory-only host included. -/
def Op.Ok (nt : Bool) (s : State) (op : Op) : Prop :=
  match op with
  | .opendir h fd path => (s.fds fd).used = false ∧
      ((∃ es, h.virtualDir path = .entries es) ∨ (nt = false ∧ procSub path = none))
  | .openDir h fd path =>
    (s.fds fd).used = false ∧ nt = false ∧ (treeDir h path = true ∨ procSub path = none)
  | .content fd | .otherOpen fd => (s.fds fd).used = false
  | .hostOpen _ fd handle _ _ => (s.fds fd).used = false ∧ handle ≠ 0
  | .close fd => (s.fds fd).used = true

/-! ## What the table is for -/

/-- Every answer for a number is about the directory that is open under it. -/
structure Answers (s : State) : Prop where
  unique : (Slots.keys s.table).Nodup
  vpath : ∀ fd p, s.fdVpath fd 256 = some p → s.dir fd = some p
  join : ∀ fd rel outsz out, s.join fd rel outsz = some out →
    ∃ p, s.dir fd = some p ∧ out = Procfs.join p rel

/-- No entry of a memory descriptor is left under the number. -/
def State.Forgotten (s : State) (fd : Nat) : Prop :=
  ∀ e, Slots.lookup s.table fd = some e → e.handle ≠ 0

/-- There is no room for an entry, or the path fits into one. -/
def State.Keeps (s : State) (fd : Nat) (path : Text) : Prop :=
  Slots.hasRoom s.table fd = true → path.length < 200

/-- What is opened from memory and not remembered gets a number without an old entry; what is
remembered is a directory, and its path fits. -/
def Op.Meets (nt : Bool) (s : State) (op : Op) : Prop :=
  match op with
  | .opendir h fd path | .openDir h fd path =>
    if treeDir h path then s.Keeps fd path else s.Forgotten fd
  | .content fd => s.Forgotten fd
  | .hostOpen h fd _ isDir vpath =>
    ∀ p ∈ vpath, nt = true → treeDir h p = true →
      s.Keeps fd p ∧ (Slots.hasRoom s.table fd = true → isDir = true)
  | .otherOpen _ | .close _ => True

/-! ## One step -/

/-- The entry that is found belongs to the directory that is open. -/
def Sound (s : State) : Prop := ∀ fd e, s.trackGet fd = some e → s.dir fd = some e.vpath

structure Inv (s : State) : Prop where
  unique : (Slots.keys s.table).Nodup
  /-- an entry with a handle is that of an open file -/
  live : ∀ fd e, Slots.lookup s.table fd = some e → e.handle ≠ 0 → (s.fds fd).kind = .file
  idle : ∀ fd, (s.fds fd).used = false → (s.fds fd).kind = .empty

theorem Sound.answers {s : State} (h : Sound s) (hu : (Slots.keys s.table).Nodup) : Answers s := by
  refine ⟨hu, ?_, ?_⟩
  · intro fd p hp
    obtain ⟨e, he, rfl⟩ := Option.map_eq_some_iff.mp hp
    have hshort := e.short
    rw [List.take_of_length_le (by omega)]
    exact h fd e he
  · intro fd rel outsz out hout
    rw [State.join] at hout
    split at hout
    · cases hout
    · obtain ⟨e, he, hout⟩ := Option.bind_eq_some_iff.mp hout
      split at hout
      · cases hout
      · split at hout
        · cases hout
          exact ⟨e.vpath, h fd e he, rfl⟩
        · cases hout

theorem Answers.sound {s : State} (h : Answers s) : Sound s := by
  intro fd e he
  have hshort := e.short
  refine h.vpath fd e.vpath ?_
  rw [State.fdVpath, he, Option.map_some, List.take_of_length_le (by omega)]

theorem isDirNode_of_listed {h : Host} {n : Node} {es : List (Text × FType)}
    (hl : h.listNode n = .entries es) : h.isDirNode n = true := by
  unfold Host.listNode at hl
  rw [Host.isDirNode]
  cases hk : n.kind with
  | root => rfl
  | netDir => rfl
  | pidDir => rfl
  | pidSub =>
    simp only [hk] at hl ⊢
    split at hl
    · rename_i htask
      have hother : n.name ≠ "fd".toList ∧ n.name ≠ "net".toList := by simp [htask]
      rw [if_neg (not_or.mpr hother), if_pos htask]
      split at hl
      · cases hl
      · split at hl
        · rename_i hrest
          simp [hrest]
        · split at hl
          · rename_i hslash
            simp [hslash]
          · cases hl
    · split at hl
      · rename_i hnet
        simp [hnet.1, hnet.2]
      · split at hl
        · rename_i hfd
          simp [hfd.1, hfd.2]
        · cases hl
  | other => simp [hk] at hl
  | top => simp [hk] at hl
  | netFile => simp [hk] at hl
  | sys => simp [hk] at hl

/-- What is listed from memory is a directory of the tree. -/
theorem treeDir_of_listed {h : Host} {path : Text} {es : List (Text × FType)}
    (hl : h.virtualDir path = .entries es) : treeDir h path = true := by
  rw [Host.virtualDir] at hl
  rw [treeDir]
  cases hsub : procSub path with
  | none =>
    rw [hsub] at hl
    cases hl
  | some sub =>
    rw [hsub] at hl
    exact isDirNode_of_listed hl

section Step

variable {s : State} {fd fd' : Nat} {f : Fd} {dir : Option Text} {path : Text}

@[simp] theorem place_table : (s.place fd f dir).table = s.table := rfl

@[simp] theorem place_fds_self : (s.place fd f dir).fds fd = f := Function.update_self ..

@[simp] theorem place_dir_self : (s.place fd f dir).dir fd = dir := Function.update_self ..

theorem place_fds_ne (h : fd' ≠ fd) : (s.place fd f dir).fds fd' = s.fds fd' :=
  Function.update_of_ne h ..

theorem place_dir_ne (h : fd' ≠ fd) : (s.place fd f dir).dir fd' = s.dir fd' :=
  Function.update_of_ne h ..

/-- A state that differs at one number only. -/
structure Local (s s' : State) (fd : Nat) : Prop where
  fds : ∀ fd', fd' ≠ fd → s'.fds fd' = s.fds fd'
  dir : ∀ fd', fd' ≠ fd → s'.dir fd' = s.dir fd'
  lookup : ∀ fd', fd' ≠ fd → Slots.lookup s'.table fd' = Slots.lookup s.table fd'

theorem local_place : Local s (s.place fd f dir) fd :=
  ⟨fun _ => place_fds_ne, fun _ => place_dir_ne, fun _ _ => rfl⟩

theorem Local.put {s' : State} (h : Local s s' fd) : Local s (s'.trackPut fd path) fd :=
  ⟨h.fds, h.dir, fun fd' hne => (Slots.lookup_put_ne hne).trans (h.lookup fd' hne)⟩

/-- At the number that changed, the entry found belongs to what is open. -/
def SoundAt (s : State) (fd : Nat) : Prop := ∀ e, s.trackGet fd = some e → s.dir fd = some e.vpath

theorem Local.sound_iff {s' : State} (h : Local s s' fd) (hs : Sound s) : Sound s' ↔ SoundAt s' fd := by
  constructor
  · intro hs'
    exact hs' fd
  · intro hat fd' e he
    by_cases hne : fd' = fd
    · subst hne
      exact hat e he
    · rw [h.dir fd' hne]
      refine hs fd' e ?_
      rw [← he, State.trackGet, State.trackGet, h.fds fd' hne, h.lookup fd' hne]

/-- Nothing is found under a number whose descriptor holds no directory. -/
theorem soundAt_unmatched (h : ∀ e, (s.fds fd).matches e = false) : SoundAt s fd := by
  intro e he
  rw [State.trackGet, Option.filter_eq_some_iff] at he
  exact absurd he.2 (by rw [h e]; exact Bool.false_ne_true)

/-- A memory descriptor that is not remembered. -/
theorem soundAt_memory_iff :
    SoundAt (s.place fd memory none) fd ↔ s.Forgotten fd := by
  have hmatch : ∀ e, memory.matches e = true ↔ e.handle = 0 := by simp [Fd.matches, memory]
  simp only [SoundAt, State.trackGet, place_fds_self, place_table, place_dir_self,
    Option.filter_eq_some_iff, hmatch, State.Forgotten]
  constructor
  · intro h e he hzero
    cases h e ⟨he, hzero⟩
  · rintro h e ⟨he, hzero⟩
    exact absurd hzero (h e he)

/-- A descriptor that is remembered: what is found is what was written, if there was room. -/
theorem soundAt_put_iff (hmatch : f.matches (.of f.handle path) = true) :
    SoundAt ((s.place fd f dir).trackPut fd path) fd ↔
      (Slots.hasRoom s.table fd = true → dir = some (path.take 199)) := by
  simp only [SoundAt, State.trackGet, State.trackPut, place_fds_self, place_table, place_dir_self]
  cases hroom : Slots.hasRoom s.table fd with
  | true =>
    rw [Slots.lookup_put_self hroom]
    simp only [Option.filter_some, hmatch, if_true, Option.some.injEq, forall_eq', forall_const]
    rfl
  | false =>
    rw [Slots.put_full hroom, Slots.lookup_full hroom]
    refine ⟨fun _ h => absurd h Bool.false_ne_true, ?_⟩
    rintro - e hmem
    cases hmem

theorem take_eq_self_iff : path.take 199 = path ↔ path.length < 200 := by
  rw [List.take_eq_self_iff]
  omega

theorem keeps_iff : (Slots.hasRoom s.table fd = true → some path = some (path.take 199)) ↔
    s.Keeps fd path := by
  rw [State.Keeps, Option.some.injEq, @eq_comm _ path, take_eq_self_iff]

/-- No entry with a handle is under a number that is not in use. -/
theorem Inv.handle_zero (h : Inv s) (hu : (s.fds fd).used = false) {e : Entry}
    (he : Slots.lookup s.table fd = some e) : e.handle = 0 := by
  by_contra hne
  have hfile := h.live fd e he hne
  rw [h.idle fd hu] at hfile
  cases hfile

theorem Inv.place (h : Inv s) (hidle : f.used = false → f.kind = .empty)
    (hlive : ∀ e, Slots.lookup s.table fd = some e → e.handle ≠ 0 → f.kind = .file) :
    Inv (s.place fd f dir) := by
  refine ⟨h.unique, fun fd' e he hne => ?_, fun fd' hu => ?_⟩
  · by_cases hfd : fd' = fd
    · subst hfd
      rw [place_fds_self]
      exact hlive e he hne
    · rw [place_fds_ne hfd]
      exact h.live fd' e he hne
  · by_cases hfd : fd' = fd
    · subst hfd
      rw [place_fds_self] at hu ⊢
      exact hidle hu
    · rw [place_fds_ne hfd] at hu ⊢
      exact h.idle fd' hu

/-- What is opened under a number that was not in use. -/
theorem Inv.open (h : Inv s) (hu : (s.fds fd).used = false) (hused : f.used = true) :
    Inv (s.place fd f dir) :=
  h.place (fun hf => absurd (hf.symm.trans hused) Bool.false_ne_true)
    fun _ he hne => absurd (h.handle_zero hu he) hne

theorem Inv.put (h : Inv s) (hf : (s.fds fd).handle ≠ 0 → (s.fds fd).kind = .file) :
    Inv (s.trackPut fd path) := by
  refine ⟨Slots.nodup_put h.unique, fun fd' e he hne => ?_, h.idle⟩
  by_cases hfd : fd' = fd
  · subst hfd
    cases hroom : Slots.hasRoom s.table fd' with
    | true =>
      rw [State.trackPut, Slots.lookup_put_self hroom] at he
      cases he
      exact hf hne
    | false =>
      rw [State.trackPut, Slots.put_full hroom, Slots.lookup_full hroom] at he
      cases he
  · rw [State.trackPut, Slots.lookup_put_ne hfd] at he
    exact h.live fd' e he hne

theorem ordinary_used (nt : Bool) (handle : Nat) : (ordinary nt handle).used = true := by
  cases nt <;> rfl

theorem ordinary_file (nt : Bool) (handle : Nat) :
    (ordinary nt handle).handle ≠ 0 → (ordinary nt handle).kind = .file := by
  cases nt with
  | true => exact fun _ => rfl
  | false => exact fun h => absurd rfl h

/-- A directory of memory that is remembered. -/
theorem memory_put_spec (hinv : Inv s) (hs : Sound s) (hu : (s.fds fd).used = false) :
    Inv ((s.place fd memory (some path)).trackPut fd path) ∧
      (Sound ((s.place fd memory (some path)).trackPut fd path) ↔ s.Keeps fd path) := by
  refine ⟨(hinv.open hu rfl).put fun h => absurd (by rw [place_fds_self]; rfl) h, ?_⟩
  rw [local_place.put.sound_iff hs, soundAt_put_iff (f := memory) rfl, keeps_iff]

/-- A memory descriptor that is not. -/
theorem memory_spec (hinv : Inv s) (hs : Sound s) (hu : (s.fds fd).used = false) :
    Inv (s.place fd memory none) ∧ (Sound (s.place fd memory none) ↔ s.Forgotten fd) :=
  ⟨hinv.open hu rfl, by rw [local_place.sound_iff hs, soundAt_memory_iff]⟩

/-- An ordinary file that is not remembered is not mistaken either. -/
theorem ordinary_spec (hinv : Inv s) (hs : Sound s) (hu : (s.fds fd).used = false) (nt : Bool)
    {handle : Nat} (hh : handle ≠ 0) :
    Inv (s.place fd (ordinary nt handle) none) ∧ Sound (s.place fd (ordinary nt handle) none) := by
  refine ⟨hinv.open hu (ordinary_used nt handle), (local_place.sound_iff hs).mpr ?_⟩
  cases nt with
  | false =>
    refine soundAt_unmatched fun e => ?_
    rw [place_fds_self]
    rfl
  | true =>
    intro e he
    rw [State.trackGet, Option.filter_eq_some_iff, place_fds_self] at he
    have hzero := hinv.handle_zero hu he.1
    have hmatch : handle = e.handle := by simpa [Fd.matches, ordinary] using he.2
    exact absurd (hmatch.trans hzero) hh

/-- An ordinary open under a virtual path. -/
theorem ordinary_put_spec (hinv : Inv s) (hs : Sound s) (hu : (s.fds fd).used = false) (nt : Bool)
    (handle : Nat) (isDir : Bool) :
    Inv ((s.place fd (ordinary nt handle) (if isDir then some path else none)).trackPut fd path) ∧
      (Sound ((s.place fd (ordinary nt handle) (if isDir then some path else none)).trackPut fd path) ↔
        (nt = true → s.Keeps fd path ∧ (Slots.hasRoom s.table fd = true → isDir = true))) := by
  refine ⟨(hinv.open hu (ordinary_used nt handle)).put ?_, ?_⟩
  · rw [place_fds_self]
    exact ordinary_file nt handle
  · rw [local_place.put.sound_iff hs]
    cases nt with
    | false =>
      refine iff_of_true (soundAt_unmatched fun e => ?_) nofun
      rw [State.trackPut]
      simp only [place_fds_self]
      rfl
    | true =>
      rw [soundAt_put_iff (by simp [Fd.matches, ordinary, Entry.of])]
      cases isDir with
      | true =>
        simp only [if_true, implies_true, and_true, forall_const]
        exact keeps_iff
      | false =>
        simp only [Bool.false_eq_true, if_false, imp_false, forall_const, reduceCtorEq]
        exact ⟨fun h => ⟨fun hroom => absurd hroom h, h⟩, And.right⟩

theorem close_spec (hinv : Inv s) (hs : Sound s) (nt : Bool) (fd : Nat) :
    Inv (s.close nt fd) ∧ Sound (s.close nt fd) := by
  have hempty : ∀ s' : State, SoundAt (s'.place fd ⟨false, .empty, 0⟩ none) fd := fun s' =>
    soundAt_unmatched fun e => by rw [place_fds_self]; rfl
  rw [State.close]
  by_cases hdrop : nt = false ∨ (s.fds fd).kind = .file
  · simp only [if_pos hdrop]
    have hlocal : Local s ((s.fdClosed fd).place fd ⟨false, .empty, 0⟩ none) fd :=
      ⟨fun _ hne => place_fds_ne hne, fun _ hne => place_dir_ne hne,
        fun _ hne => Slots.lookup_drop_ne hne⟩
    have hgone : Slots.lookup (s.fdClosed fd).table fd = none := Slots.lookup_drop_self hinv.unique
    have hclosed : Inv (s.fdClosed fd) := by
      refine ⟨Slots.nodup_drop hinv.unique, fun fd' e he hne => ?_, hinv.idle⟩
      by_cases hfd : fd' = fd
      · rw [hfd, hgone] at he
        cases he
      · rw [State.fdClosed, Slots.lookup_drop_ne hfd] at he
        exact hinv.live fd' e he hne
    refine ⟨hclosed.place (fun _ => rfl) fun e he => ?_, (hlocal.sound_iff hs).mpr (hempty _)⟩
    rw [hgone] at he
    cases he
  · simp only [if_neg hdrop]
    refine ⟨hinv.place (fun _ => rfl) fun e he hne => ?_, (local_place.sound_iff hs).mpr (hempty s)⟩
    exact absurd (Or.inr (hinv.live fd e he hne)) hdrop

/-- One operation keeps the invariant, and the answers stay right exactly if it meets the
condition. -/
theorem step_spec (hinv : Inv s) (hs : Sound s) {nt : Bool} {op : Op} (hok : op.Ok nt s) :
    Inv (step nt s op).1 ∧ (Sound (step nt s op).1 ↔ op.Meets nt s) := by
  cases op with
  | opendir h fd path =>
    rw [step, Op.Meets, State.track]
    cases ht : treeDir h path with
    | true => exact memory_put_spec hinv hs hok.1
    | false => exact memory_spec hinv hs hok.1
  | openDir h fd path =>
    rw [step, Op.Meets]
    obtain ⟨hu, -, hdir⟩ := hok
    cases ht : treeDir h path with
    | true =>
      have hsub : procSub path ≠ none := by
        intro hnone
        rw [treeDir, hnone] at ht
        cases ht
      simp only [if_neg hsub]
      exact memory_put_spec hinv hs hu
    | false =>
      have hsub : procSub path = none := hdir.resolve_left (by rw [ht]; exact Bool.false_ne_true)
      simp only [if_pos hsub]
      exact memory_spec hinv hs hu
  | content fd => exact memory_spec hinv hs hok
  | hostOpen h fd handle isDir vpath =>
    obtain ⟨hu, hh⟩ := hok
    have hplain := ordinary_spec hinv hs hu nt hh
    rw [step, Op.Meets]
    cases vpath with
    | none =>
      simp only [Option.filter_none, ite_self, Option.elim_none]
      exact ⟨hplain.1, iff_of_true hplain.2 nofun⟩
    | some p =>
      simp only [Option.elim_some, State.track, Option.filter_some, Option.mem_some_iff, forall_eq']
      cases ht : treeDir h p with
      | true => simpa using ordinary_put_spec hinv hs hu nt handle isDir
      | false => simpa using hplain
  | otherOpen fd =>
    have hother : SoundAt (s.place fd ⟨true, .other, 0⟩ none) fd :=
      soundAt_unmatched fun e => by rw [place_fds_self]; rfl
    exact ⟨hinv.open hok rfl, iff_of_true ((local_place.sound_iff hs).mpr hother) trivial⟩
  | close fd =>
    obtain ⟨hclosed, hsound⟩ := close_spec hinv hs nt fd
    exact ⟨hclosed, iff_of_true hsound trivial⟩

end Step

/-! ## Runs -/

theorem inv_init : Inv init := by
  have hlookup : ∀ (n fd : Nat), Slots.lookup (List.replicate n (none : Option (Nat × Entry))) fd = none := by
    intro n fd
    induction n with
    | zero => rfl
    | succ n ih => exact ih
  have hkeys : ∀ n : Nat, Slots.keys (List.replicate n (none : Option (Nat × Entry))) = [] := by
    intro n
    induction n with
    | zero => rfl
    | succ n ih => exact ih
  refine ⟨hkeys 256 ▸ List.nodup_nil, fun fd e he => ?_, fun _ _ => rfl⟩
  rw [init, hlookup] at he
  cases he

theorem sound_init : Sound init := fun _ => soundAt_unmatched fun _ => rfl

theorem run_spec {nt : Bool} {s : State} {ops : List Op} (hinv : Inv s) (hs : Sound s)
    (hok : ∀ x ∈ visits (step nt) s ops, x.2.Ok nt x.1) :
    (∀ n, Answers (last (step nt) s (ops.take n))) ↔ ∀ x ∈ visits (step nt) s ops, x.2.Meets nt x.1 := by
  induction ops generalizing s with
  | nil =>
    simp only [List.take_nil, visits, last]
    exact iff_of_true (fun _ => hs.answers hinv.unique) fun x hx => absurd hx List.not_mem_nil
  | cons op ops ih =>
    rw [visits, List.forall_mem_cons] at hok ⊢
    obtain ⟨hnext, hsound⟩ := step_spec hinv hs hok.1
    constructor
    · intro h
      have hs' : Sound (step nt s op).1 := (h 1).sound
      exact ⟨hsound.mp hs', (ih hnext hs' hok.2).mp fun n => h (n + 1)⟩
    · rintro ⟨hmeets, hrest⟩ n
      have hs' := hsound.mpr hmeets
      cases n with
      | zero => exact hs.answers hinv.unique
      | succ n => exact (ih hnext hs' hok.2).mpr hrest n

/-- **Tracked directories.** In every run the table has one entry for a number at most and every
answer is about the directory that is open, exactly if no memory descriptor that is not
remembered gets a number with an old entry, and what is remembered is a directory whose path fits. -/
theorem tracked_iff (nt : Bool) (ops : List Op)
    (hok : ∀ x ∈ visits (step nt) init ops, x.2.Ok nt x.1) :
    (∀ n, Answers (last (step nt) init (ops.take n))) ↔
      ∀ x ∈ visits (step nt) init ops, x.2.Meets nt x.1 :=
  run_spec inv_init sound_init hok

theorem tracked_listing : Answers (last (step true) init
    [.opendir plainHost 5 "/proc".toList, .close 5]) := by
  have hok : ∀ x ∈ visits (step true) init [.opendir plainHost 5 "/proc".toList, .close 5],
      x.2.Ok true x.1 := by
    rw [visits, visits, visits, List.forall_mem_cons, List.forall_mem_singleton]
    exact ⟨⟨rfl, Or.inl ⟨_, rfl⟩⟩, rfl⟩
  refine (tracked_iff true _ hok).mpr ?_ 2
  rw [visits, visits, visits, List.forall_mem_cons, List.forall_mem_singleton]
  exact ⟨fun _ => by decide, trivial⟩

/-- A content file under the number of a closed listing is taken for the directory. -/
theorem stale_entry_answers :
    let s := last (step true) init [.opendir plainHost 5 "/proc".toList, .close 5, .content 5]
    s.dir 5 = none ∧ s.fdVpath 5 256 = some "/proc".toList ∧
      s.join 5 "stat".toList 300 = some "/proc/stat".toList := by
  have hroom : Slots.hasRoom init.table 5 = true := by
    rw [Slots.hasRoom, Bool.or_eq_true]
    exact Or.inr rfl
  have htable : ∀ s : State,
      (last (step true) s [.opendir plainHost 5 "/proc".toList, .close 5, .content 5]).table =
        Slots.put s.table 5 (.of 0 "/proc".toList) := fun _ => rfl
  intro s
  have hget : s.trackGet 5 = some (.of 0 "/proc".toList) := by
    rw [State.trackGet, htable, Slots.lookup_put_self hroom]
    rfl
  refine ⟨rfl, ?_, ?_⟩
  · rw [State.fdVpath, hget]
    rfl
  · rw [State.join, hget]
    rfl

end ApeShim.Procfs.Tracked
