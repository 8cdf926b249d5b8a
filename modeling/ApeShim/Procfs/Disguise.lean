import ApeShim.Lib.Machine
import ApeShim.Procfs.ProcArgs
import Mathlib.Logic.Function.Basic

/-!
The cache of `pfs_xnu_ape_program` (`shim/procfs/xnuapi.c`): the program behind the loader, kept in
64 slots by the process number and the second in which the process started. An exec changes neither.
Threads resolve outside the lock, and processes come, change and go between any two of their steps.
-/

namespace ApeShim.Disguise
open Trace CString ProcArgs Function

/-! ## Processes -/

/-- What a process runs. -/
structure Image where
  layout : Layout
  /-- `KERN_PROCARGS2` may be asked for it -/
  readable : Bool

/-- What `proc_pidpath` reports. -/
def Image.path (img : Image) : List UInt8 := img.layout.image

/-- What the sysctl copies out, nothing where it fails. -/
def Image.args (img : Image) : List UInt8 := if img.readable then img.layout.block else []

/-- The program of an image, resolved anew; nothing for -1. -/
def Image.program (img : Image) : Option (Option (List UInt8)) := apeProgram img.path img.args

structure Process where
  /-- `pbi_start_tvsec` -/
  start : Nat
  image : Image

theorem clean_nil : ∀ s ∈ ([] : List (List UInt8)), 0 ∉ s := by simp

/-- The kernel's own process, of which nothing can be read. -/
def kernelTask : Image :=
  ⟨⟨[], by decide, [], by decide, 0, [], clean_nil, by decide, [], clean_nil⟩, false⟩

/-! ## Who asks -/

/-- `set_comm` -/
def setComm (pid : Nat) (name : List UInt8) : List UInt8 :=
  let comm := (name.take 63).map fun c =>
    if c < 32 ∨ 126 < c ∨ c = 0x28 ∨ c = 0x29 ∨ c = 0x20 then 0x5f else c
  if comm = [] then (Nat.toDigits 10 pid).map fun c => c.toNat.toUInt8 else comm

/-- Behind the last slash, unless nothing is there. -/
def baseName (prog : List UInt8) : List UInt8 :=
  match lastFrom 0x2f prog with
  | none => prog
  | some base => if base.tail = [] then prog else base.tail

/-- `p->comm` in `snap_locked`, from the name that the kernel gives. -/
def snapComm (pid : Nat) (name : List UInt8) (program : Option (List UInt8)) : List UInt8 :=
  let comm := setComm pid name
  if apeName comm then (program.filter (· ≠ [])).elim comm fun prog => setComm pid (baseName prog)
  else comm

/-- `pfs_xnu_pid_link` for `exe` of another process, into room for `n` bytes; `path` and `cwd` are
what the kernel reports. -/
def exeLink (path : List UInt8) (cwd : Option (List UInt8)) (n : Nat)
    (program : Option (List UInt8)) : List UInt8 :=
  let tmp := path.take 1023
  let tmp := match program.filter (· ≠ []) with
    | none => tmp
    | some prog =>
      let rel := if prog.take 2 = [0x2e, 0x2f] then prog.drop 2 else prog
      if namesLoader tmp = false then tmp
      else if rel.head? = some 0x2f then rel.take 1023
      else (cwd.filter (· ≠ [])).elim tmp fun cwd => (cwd.take 511 ++ 0x2f :: rel).take 1023
  tmp.take n

/-- The callers of `pfs_xnu_ape_program`. -/
inductive Asker
  | program (n : Nat)
  | comm (name : List UInt8)
  | exe (path : List UInt8) (cwd : Option (List UInt8)) (n : Nat)

/-- The room that it has for the program. -/
def Asker.room : Asker → Nat
  | .program n => n
  | _ => 511

inductive Shown
  | program (prog : Option (List UInt8))
  | comm (text : List UInt8)
  | exe (text : List UInt8)
  deriving DecidableEq

/-- What it makes of the answer. -/
def Asker.show (a : Asker) (pid : Nat) (answer : Option (List UInt8)) : Shown :=
  let answer := answer.map (·.take a.room)
  match a with
  | .program _ => .program answer
  | .comm name => .comm (snapComm pid name answer)
  | .exe path cwd n => .exe (exeLink path cwd n answer)

/-! ## The cache -/

/-- `struct ape_prog` -/
structure Slot where
  pid : Nat
  start : Nat
  /-- `prog`, nothing where `len` is not positive -/
  answer : Option (List UInt8)

/-- Where a thread is in `pfs_xnu_ape_program`. -/
inductive Phase
  | idle
  /-- it knows the start second -/
  | asked (pid start : Nat) (a : Asker)
  /-- the slot is not about this process -/
  | missed (pid start : Nat) (a : Asker)
  /-- it has the path -/
  | pathed (pid start : Nat) (a : Asker) (path : List UInt8)
  /-- it has the answer, and has not stored it -/
  | resolved (pid start : Nat) (a : Asker) (answer : Option (List UInt8))

structure State (ι : Type*) where
  /-- the second it is -/
  now : Nat
  procs : Nat → Option Process
  /-- `g_ape` -/
  cache : Nat → Slot
  thread : ι → Phase

inductive Event (ι : Type*)
  | clock (now : Nat)
  | fork (parent child : Nat)
  | exec (pid : Nat) (img : Image)
  | exit (pid : Nat)
  | call (t : ι) (pid : Nat) (a : Asker)
  | lookup (t : ι)
  | path (t : ι)
  | args (t : ι)
  | store (t : ι)

/-- What a caller was shown of a live process. -/
structure Obs where
  pid : Nat
  asker : Asker
  shown : Shown
  /-- what the process runs at that moment -/
  image : Image

/-- It was shown what resolving the image anew would have shown. -/
def Obs.Truthful (o : Obs) : Prop :=
  ∃ answer, o.image.program = some answer ∧ o.shown = o.asker.show o.pid answer

variable {ι : Type*} [DecidableEq ι]

namespace State

def goto (s : State ι) (t : ι) (p : Phase) : State ι := { s with thread := update s.thread t p }

def put (s : State ι) (pid : Nat) (q : Option Process) : State ι :=
  { s with procs := update s.procs pid q }

def keep (s : State ι) (c : Slot) : State ι :=
  { s with cache := update s.cache (c.pid % 64) c }

/-- The process that was asked about, unless it is gone. -/
def live (s : State ι) (pid start : Nat) : Option Process :=
  (s.procs pid).filter fun p => p.start = start

def answered (s : State ι) (pid start : Nat) (a : Asker) (answer : Option (List UInt8)) : List Obs :=
  ((s.live pid start).map fun p => ⟨pid, a, a.show pid answer, p.image⟩).toList

/-- A thread runs `pfs_xnu_ape_program` in five steps: it asks the kernel for the start second, looks
at the slot, asks for the path, asks for the arguments, and stores. -/
def step (s : State ι) : Event ι → Option (State ι × List Obs)
  | .clock now => some ({ s with now := now }, [])
  | .fork parent child =>
    match s.procs parent, s.procs child with
    | some p, none => some (s.put child (some ⟨s.now, p.image⟩), [])
    | _, _ => none
  | .exec pid img =>
    (s.procs pid).map fun p => (s.put pid (some ⟨p.start, img⟩), [])
  | .exit pid => some (s.put pid none, [])
  | .call t pid a =>
    match s.thread t with
    | .idle => some (s.goto t ((s.procs pid).elim .idle fun p => .asked pid p.start a), [])
    | _ => none
  | .lookup t =>
    match s.thread t with
    | .asked pid start a =>
      let c := s.cache (pid % 64)
      if c.pid = pid ∧ c.start = start then some (s.goto t .idle, s.answered pid start a c.answer)
      else some (s.goto t (.missed pid start a), [])
    | _ => none
  | .path t =>
    match s.thread t with
    | .missed pid start a =>
      some (s.goto t (.pathed pid start a ((s.procs pid).elim [] fun p => p.image.path)), [])
    | _ => none
  | .args t =>
    match s.thread t with
    | .pathed pid start a path =>
      (apeProgram path ((s.procs pid).elim [] fun p => p.image.args)).map fun answer =>
        (s.goto t (.resolved pid start a answer), [])
    | _ => none
  | .store t =>
    match s.thread t with
    | .resolved pid start a answer =>
      some ((s.goto t .idle).keep ⟨pid, start, answer⟩, s.answered pid start a answer)
    | _ => none

/-- The start of the shim on a machine that was booted in the second `boot`. -/
def init (boot : Nat) : State ι where
  now := boot
  procs := update (fun _ => none) 0 (some ⟨boot, kernelTask⟩)
  cache _ := ⟨0, 0, none⟩
  thread _ := .idle

end State

def machine (ι : Type*) [DecidableEq ι] (boot : Nat) : Machine (State ι) (Event ι) Obs :=
  ⟨.init boot, State.step⟩

/-! ## What the cache knows -/

/-- What the slot holds for a process, and what the queries under way have read of it, is right if the
process runs `img`. -/
structure Right (s : State ι) (pid start : Nat) (img : Image) : Prop where
  slot : (s.cache (pid % 64)).pid = pid → (s.cache (pid % 64)).start = start →
    img.program = some (s.cache (pid % 64)).answer
  pathed : ∀ t a path, s.thread t = .pathed pid start a path →
    apeProgram path img.args = img.program
  resolved : ∀ t a answer, s.thread t = .resolved pid start a answer → img.program = some answer

/-- A step does not give a process an image that the cache is wrong about: not by an exec, and not
by a fork that takes up a number again within the second. -/
def Keeps (s : State ι) : Event ι → Prop
  | .fork parent child => ∀ p ∈ s.procs parent, Right s child s.now p.image
  | .exec pid img => ∀ p ∈ s.procs pid, Right s pid p.start img
  | _ => True

/-- A step that a thread takes by itself. -/
def Event.query : Event ι → Bool
  | .call .. | .lookup _ | .path _ | .args _ | .store _ => true
  | _ => false

/-- Queries alone can go on from `s` to where a caller was shown something wrong. -/
def Lies (boot : Nat) (s : State ι) (log : List Obs) : Prop :=
  ∃ queries : List (Event ι), (∀ e ∈ queries, e.query = true) ∧
    ∃ r ∈ (machine ι boot).replay (fun _ _ => true) s log queries, ∃ o ∈ r.2, ¬ o.Truthful

/-- The cache and the queries under way are right about every process. -/
def Sound (s : State ι) : Prop := ∀ pid, ∀ p ∈ s.procs pid, Right s pid p.start p.image

variable {s s' : State ι} {t : ι} {pid start : Nat} {img : Image} {p : Phase}

theorem Right.goto (h : Right s pid start img)
    (hpath : ∀ a path, p = .pathed pid start a path → apeProgram path img.args = img.program)
    (hres : ∀ a answer, p = .resolved pid start a answer → img.program = some answer) :
    Right (s.goto t p) pid start img where
  slot := h.slot
  pathed u a path hu := by
    by_cases hut : u = t
    · subst hut
      exact hpath a path (by simpa [State.goto] using hu)
    · exact h.pathed u a path (by simpa [State.goto, hut] using hu)
  resolved u a answer hu := by
    by_cases hut : u = t
    · subst hut
      exact hres a answer (by simpa [State.goto] using hu)
    · exact h.resolved u a answer (by simpa [State.goto, hut] using hu)

omit [DecidableEq ι] in
theorem answered_truthful {a : Asker} {answer : Option (List UInt8)}
    (h : ∀ q ∈ s.procs pid, q.start = start → q.image.program = some answer) :
    ∀ o ∈ s.answered pid start a answer, o.Truthful := by
  intro o ho
  rw [State.answered, State.live, Option.mem_toList, Option.map_eq_some_iff] at ho
  obtain ⟨q, hq, rfl⟩ := ho
  rw [Option.filter_eq_some_iff, decide_eq_true_eq] at hq
  exact ⟨answer, h q hq.1 hq.2, rfl⟩

/-! ### One step -/

omit [DecidableEq ι] in
/-- A process that comes, or changes, is one that the cache is right about. -/
theorem Sound.put (h : Sound s) {q : Option Process} (hq : ∀ r ∈ q, Right s pid r.start r.image) :
    Sound (s.put pid q) := by
  intro pid' r hr
  have hright : Right s pid' r.start r.image := by
    by_cases hp : pid' = pid
    · subst hp
      exact hq r (by simpa [State.put] using hr)
    · exact h pid' r (by simpa [State.put, hp] using hr)
  exact ⟨hright.slot, hright.pathed, hright.resolved⟩

/-- A thread that has read nothing yet knows nothing wrong. -/
theorem Sound.goto (h : Sound s) (hpath : ∀ pid start a path, p ≠ .pathed pid start a path)
    (hres : ∀ pid start a answer, p ≠ .resolved pid start a answer) : Sound (s.goto t p) :=
  fun pid q hq => (h pid q hq).goto (fun a path hp => absurd hp (hpath pid q.start a path))
    fun a answer hp => absurd hp (hres pid q.start a answer)

theorem Sound.path (h : Sound s) (a : Asker) :
    Sound (s.goto t (.pathed pid start a ((s.procs pid).elim [] fun q => q.image.path))) := by
  intro pid' q hq
  have hq' : q ∈ s.procs pid' := hq
  refine (h pid' q hq').goto (fun b path hp => ?_) fun b answer hp => by cases hp
  obtain ⟨rfl, -, -, rfl⟩ := Phase.pathed.inj hp
  rw [Option.mem_def.mp hq']
  rfl

theorem Sound.args (h : Sound s) {a : Asker} {path : List UInt8} {answer : Option (List UInt8)}
    (ht : s.thread t = .pathed pid start a path)
    (ha : apeProgram path ((s.procs pid).elim [] fun q => q.image.args) = some answer) :
    Sound (s.goto t (.resolved pid start a answer)) := by
  intro pid' q hq
  have hq' : q ∈ s.procs pid' := hq
  refine (h pid' q hq').goto (fun b path hp => by cases hp) fun b answer' hp => ?_
  obtain ⟨rfl, rfl, -, rfl⟩ := Phase.resolved.inj hp
  rw [Option.mem_def.mp hq'] at ha
  rw [← (h pid q hq').pathed t a path ht]
  exact ha

theorem Sound.store (h : Sound s) {a : Asker} {answer : Option (List UInt8)}
    (ht : s.thread t = .resolved pid start a answer) :
    Sound ((s.goto t .idle).keep ⟨pid, start, answer⟩) := by
  intro pid' q hq
  have hq' : q ∈ s.procs pid' := hq
  have hr := h.goto (t := t) (p := .idle) (fun _ _ _ _ => Phase.noConfusion)
    (fun _ _ _ _ => Phase.noConfusion) pid' q hq
  refine ⟨?_, hr.pathed, hr.resolved⟩
  by_cases hslot : pid' % 64 = pid % 64
  · simp only [State.keep, hslot, update_self]
    rintro rfl rfl
    exact (h pid q hq').resolved t a answer ht
  · simp only [State.keep, update_of_ne hslot]
    exact (h pid' q hq').slot

theorem Sound.step (h : Sound s) {e : Event ι} (hk : Keeps s e) {out : List Obs}
    (hs : s.step e = some (s', out)) : Sound s' ∧ ∀ o ∈ out, o.Truthful := by
  cases e with
  | clock now =>
    cases hs
    exact ⟨fun pid q hq => ⟨(h pid q hq).slot, (h pid q hq).pathed, (h pid q hq).resolved⟩, by simp⟩
  | fork parent child =>
    simp only [State.step] at hs
    split at hs
    · rename_i q hq hc
      cases hs
      exact ⟨h.put (by simpa using hk q hq), by simp⟩
    · cases hs
  | exec pid img =>
    simp only [State.step, Option.map_eq_some_iff] at hs
    obtain ⟨q, hq, hs⟩ := hs
    cases hs
    exact ⟨h.put (by simpa using hk q hq), by simp⟩
  | exit pid =>
    cases hs
    exact ⟨h.put (by simp), by simp⟩
  | call t pid a =>
    simp only [State.step] at hs
    split at hs
    · cases hs
      refine ⟨h.goto (fun _ _ _ _ hp => ?_) fun _ _ _ _ hp => ?_, by simp⟩
      all_goals cases hq : s.procs pid <;> rw [hq] at hp <;> cases hp
    · cases hs
  | lookup t =>
    simp only [State.step] at hs
    split at hs
    · rename_i pid start a ht
      split at hs
      · rename_i hc
        cases hs
        refine ⟨h.goto (fun _ _ _ _ => Phase.noConfusion) fun _ _ _ _ => Phase.noConfusion,
          answered_truthful fun q hq hstart => ?_⟩
        exact (h pid q hq).slot hc.1 (hc.2.trans hstart.symm)
      · cases hs
        exact ⟨h.goto (fun _ _ _ _ => Phase.noConfusion) fun _ _ _ _ => Phase.noConfusion, by simp⟩
    · cases hs
  | path t =>
    simp only [State.step] at hs
    split at hs
    · rename_i pid start a ht
      cases hs
      exact ⟨h.path a, by simp⟩
    · cases hs
  | args t =>
    simp only [State.step] at hs
    split at hs
    · rename_i pid start a path ht
      rw [Option.map_eq_some_iff] at hs
      obtain ⟨answer, ha, hs⟩ := hs
      cases hs
      exact ⟨h.args ht ha, by simp⟩
    · cases hs
  | store t =>
    simp only [State.step] at hs
    split at hs
    · rename_i pid start a answer ht
      cases hs
      refine ⟨h.store ht, answered_truthful fun q hq hstart => ?_⟩
      subst hstart
      exact (h pid q hq).resolved t a answer ht
    · cases hs

/-! ### Runs -/

theorem kernelTask_program : kernelTask.program = some none := rfl

omit [DecidableEq ι] in
theorem sound_init (boot : Nat) : Sound (State.init boot : State ι) := by
  intro pid q hq
  have hq' : update (fun _ => none) 0 (some ⟨boot, kernelTask⟩) pid = some q := hq
  have hpid : pid = 0 := by
    by_contra hne
    rw [update_of_ne hne] at hq'
    cases hq'
  subst hpid
  rw [update_self, Option.some_inj] at hq'
  subst hq'
  exact ⟨fun _ _ => kernelTask_program, fun _ _ _ h => (Phase.noConfusion h),
    fun _ _ _ h => (Phase.noConfusion h)⟩

theorem sound_run {boot : Nat} {log : List Obs} (h : (machine ι boot).Run Keeps s log) :
    Sound s ∧ ∀ o ∈ log, o.Truthful := by
  refine h.invariant (P := fun s log => Sound s ∧ ∀ o ∈ log, o.Truthful)
    ⟨sound_init boot, by simp⟩ ?_
  intro s log e s' out ⟨hsound, hlog⟩ hk hs
  obtain ⟨hsound', hout⟩ := hsound.step hk hs
  exact ⟨hsound', fun o ho => (List.mem_append.mp ho).elim (hout o) (hlog o)⟩

/-! ### What is wrong comes out -/

section
variable {boot n : Nat} {log : List Obs} {q : Process} {a : Asker} {path : List UInt8}
  {answer : Option (List UInt8)}

/-- Any path and any arguments can be resolved. -/
theorem exists_program (path : List UInt8) (img : Image) :
    ∃ answer, apeProgram path img.args = some answer := by
  rw [← Option.isSome_iff_exists, ← Option.ne_none_iff_isSome, Image.args]
  split
  · exact ((closed_iff path _).mpr (img.layout.closed path)).2
  · rw [apeProgram, if_pos (Or.inr (Or.inr (by simp)))]
    exact Option.some_ne_none _

theorem Lies.cons {e : Event ι} {out : List Obs} (he : e.query = true)
    (hs : s.step e = some (s', out)) (h : Lies boot s' (out ++ log)) : Lies boot s log := by
  obtain ⟨queries, hq, r, hr, hlie⟩ := h
  refine ⟨e :: queries, List.forall_mem_cons.mpr ⟨he, hq⟩, r, ?_, hlie⟩
  have hs' : (machine ι boot).step s e = some (s', out) := hs
  rw [Machine.replay, if_pos rfl, hs']
  exact hr

/-- With room enough, a wrong answer is seen to be wrong. -/
theorem show_program_ne {fresh : Option (List UInt8)} (hne : fresh ≠ answer)
    (hn : (answer.getD []).length + (fresh.getD []).length ≤ n) :
    (Asker.program n).show pid answer ≠ (Asker.program n).show pid fresh := by
  intro h
  have htake : ∀ r : Option (List UInt8), (r.getD []).length ≤ n → r.map (·.take n) = r := by
    rintro (_ | r) hr
    · rfl
    · exact congrArg some (List.take_of_length_le hr)
  have hmap : answer.map (·.take n) = fresh.map (·.take n) := Shown.program.inj h
  rw [htake answer (by omega), htake fresh (by omega)] at hmap
  exact hne hmap.symm

theorem lies_slot (hq : s.procs pid = some q) (hpid : (s.cache (pid % 64)).pid = pid)
    (hstart : (s.cache (pid % 64)).start = q.start)
    (hne : q.image.program ≠ some (s.cache (pid % 64)).answer) (ht : s.thread t = .idle) :
    Lies boot s log := by
  obtain ⟨fresh, hfresh⟩ := exists_program q.image.path q.image
  have hfresh' : q.image.program = some fresh := hfresh
  rw [hfresh', ne_eq, Option.some_inj] at hne
  let n := ((s.cache (pid % 64)).answer.getD []).length + (fresh.getD []).length
  let a := Asker.program n
  let o : Obs := ⟨pid, a, a.show pid (s.cache (pid % 64)).answer, q.image⟩
  have hcall : s.step (.call t pid a) = some (s.goto t (.asked pid q.start a), []) := by
    simp only [State.step, ht, hq, Option.elim_some]
  have hlook : (s.goto t (.asked pid q.start a)).step (.lookup t) =
      some ((s.goto t (.asked pid q.start a)).goto t .idle, [o]) := by
    have hthread : (s.goto t (.asked pid q.start a)).thread t = .asked pid q.start a :=
      update_self ..
    have hlive : (s.goto t (.asked pid q.start a)).live pid q.start = some q := by
      rw [State.live, State.goto, hq, Option.filter_some, if_pos (decide_eq_true rfl)]
    simp only [State.step, hthread]
    rw [if_pos ⟨hpid, hstart⟩, State.answered, hlive]
    rfl
  refine Lies.cons rfl hcall (Lies.cons rfl hlook ⟨[], by simp, _, rfl, o, by simp, ?_⟩)
  rintro ⟨answer, hanswer, hshown⟩
  rw [hfresh', Option.some_inj] at hanswer
  subst hanswer
  exact show_program_ne hne le_rfl hshown

theorem lies_resolved (hq : s.procs pid = some q)
    (ht : s.thread t = .resolved pid q.start a answer) (hne : q.image.program ≠ some answer) :
    Lies boot s log := by
  have hstore : s.step (.store t) = some ((s.goto t .idle).keep ⟨pid, q.start, answer⟩,
      s.answered pid q.start a answer) := by
    simp only [State.step, ht]
  have hslot : ((s.goto t .idle).keep ⟨pid, q.start, answer⟩).cache (pid % 64) =
      ⟨pid, q.start, answer⟩ := update_self ..
  refine Lies.cons rfl hstore (lies_slot (t := t) hq ?_ ?_ ?_ (update_self ..))
  · rw [hslot]
  · rw [hslot]
  · rwa [hslot]

theorem lies_pathed (hq : s.procs pid = some q) (ht : s.thread t = .pathed pid q.start a path)
    (hne : apeProgram path q.image.args ≠ q.image.program) : Lies boot s log := by
  obtain ⟨answer, hanswer⟩ := exists_program path q.image
  have hargs : s.step (.args t) = some (s.goto t (.resolved pid q.start a answer), []) := by
    simp only [State.step, ht, hq, Option.elim_some, hanswer, Option.map_some]
  refine Lies.cons rfl hargs (lies_resolved (t := t) (a := a) hq (update_self ..) fun hp => ?_)
  exact hne (hanswer.trans hp.symm)

/-- Wrong knowledge of a process is shown to somebody, if a thread is there to ask. -/
theorem lies_of_not_right (hq : s.procs pid = some q) (h : ¬ Right s pid q.start q.image)
    (ht : s.thread t = .idle) : Lies boot s log := by
  by_contra hno
  refine h ⟨fun hpid hstart => ?_, fun u a path hu => ?_, fun u a answer hu => ?_⟩
  · by_contra hne
    exact hno (lies_slot hq hpid hstart hne ht)
  · by_contra hne
    exact hno (lies_pathed hq hu hne)
  · by_contra hne
    exact hno (lies_resolved hq hu hne)

theorem lies_of_not_keeps {e : Event ι} {out : List Obs} (hk : ¬ Keeps s e)
    (hs : s.step e = some (s', out)) (ht : s.thread t = .idle) : Lies boot s' log := by
  cases e with
  | fork parent child =>
    simp only [State.step] at hs
    split at hs
    · rename_i p hp hc
      cases hs
      have hnew : (s.put child (some ⟨s.now, p.image⟩)).procs child = some ⟨s.now, p.image⟩ :=
        update_self ..
      refine lies_of_not_right hnew (fun hr => hk ?_) ht
      intro p' hp'
      rw [hp, Option.mem_some_iff] at hp'
      subst hp'
      exact ⟨hr.slot, hr.pathed, hr.resolved⟩
    · cases hs
  | exec pid img =>
    simp only [State.step, Option.map_eq_some_iff] at hs
    obtain ⟨p, hp, hs⟩ := hs
    cases hs
    have hnew : (s.put pid (some ⟨p.start, img⟩)).procs pid = some ⟨p.start, img⟩ := update_self ..
    refine lies_of_not_right hnew (fun hr => hk ?_) ht
    intro p' hp'
    rw [hp, Option.mem_some_iff] at hp'
    subst hp'
    exact ⟨hr.slot, hr.pathed, hr.resolved⟩
  | _ => exact absurd trivial hk

end

/-- **The cache of disguises.** In a run whose steps all keep it right, every caller is shown what
resolving the image anew would have shown. After a step that does not, queries alone get a wrong
answer out of it. -/
theorem disguise_truthful {boot : Nat} {log : List Obs} (h : (machine ι boot).Run Keeps s log) :
    (∀ o ∈ log, o.Truthful) ∧
      ∀ e s' out t, ¬ Keeps s e → s.step e = some (s', out) → s.thread t = .idle →
        Lies boot s' (out ++ log) :=
  ⟨(sound_run h).2, fun _ _ _ _ hk hs ht => lies_of_not_keeps hk hs ht⟩

/-! ## Two programs after each other -/

theorem ape_lt : ([0x61, 0x70, 0x65] : List UInt8).length < 4096 := by decide

/-- `ape prog` -/
def underApe (prog : List UInt8) (h : 0 ∉ prog) : Image where
  layout :=
    { image := [0x61, 0x70, 0x65]
      image_lt := ape_lt
      exec := [0x61, 0x70, 0x65]
      exec_clean := by decide
      pad := 3
      argv := [[0x61, 0x70, 0x65], prog]
      argv_clean := by simp [h]
      argc_lt := by simp
      env := []
      env_clean := clean_nil }
  readable := true

/-- The first process runs `/a` and its name is asked for. -/
def firstQuery : List (Event Unit) :=
  [.fork 0 1, .exec 1 (underApe [0x2f, 0x61] (by decide)), .call () 1 (.comm [0x61, 0x70, 0x65]),
    .lookup (), .path (), .args (), .store ()]

/-- It runs `/b` now, and is asked about again. -/
def execAndAsk : List (Event Unit) :=
  [.exec 1 (underApe [0x2f, 0x62] (by decide)), .call () 1 (.comm [0x61, 0x70, 0x65]), .lookup (),
    .call () 1 (.exe [0x61, 0x70, 0x65] none 1023), .lookup ()]

/-- Nothing is known of a process that changes. -/
def unknown (s : State Unit) : Event Unit → Bool
  | .fork _ pid | .exec pid _ =>
    (s.cache (pid % 64)).pid != pid && (match s.thread () with | .idle => true | _ => false)
  | _ => true

theorem keeps_of_unknown (s : State Unit) (e : Event Unit) (h : unknown s e = true) : Keeps s e := by
  have hright : ∀ pid start img, (s.cache (pid % 64)).pid ≠ pid → s.thread () = .idle →
      Right s pid start img := by
    intro pid start img hpid hidle
    exact ⟨fun hp _ => absurd hp hpid, fun u a path hu => (by rw [hidle] at hu; cases hu),
      fun u a answer hu => (by rw [hidle] at hu; cases hu)⟩
  have hidle : (match s.thread () with | .idle => true | _ => false) = true →
      s.thread () = .idle := by
    split <;> simp_all
  cases e with
  | fork parent child =>
    rw [unknown, Bool.and_eq_true, bne_iff_ne] at h
    exact fun p _ => hright child s.now p.image h.1 (hidle h.2)
  | exec pid img =>
    rw [unknown, Bool.and_eq_true, bne_iff_ne] at h
    exact fun p _ => hright pid p.start img h.1 (hidle h.2)
  | _ => trivial

theorem disguise_truthful_first : ∃ log : List Obs, log.map (·.shown) = [.comm [0x61]] ∧
    ∀ o ∈ log, o.Truthful := by
  obtain ⟨s, log, h, hshown⟩ := (Machine.Run.start (m := machine Unit 0)).extend unknown
    keeps_of_unknown firstQuery (fun _ log => decide (log.map (·.shown) = [.comm [0x61]]))
    (by decide +kernel)
  exact ⟨log, of_decide_eq_true hshown, (disguise_truthful h).1⟩

instance (o : Obs) : Decidable o.Truthful :=
  decidable_of_iff
    (o.image.program.any (fun answer => decide (o.shown = o.asker.show o.pid answer)) = true)
    (by simp [Obs.Truthful, Option.any_eq_true])

/-- The comm and the exe link name the program that ran before the exec. -/
theorem disguise_stale : ∃ s log, (machine Unit 0).Run anyStep s log ∧
    log.map (·.shown) = [.exe [0x2f, 0x61], .comm [0x61], .comm [0x61]] ∧
    log.map (fun o => decide o.Truthful) = [false, false, true] := by
  obtain ⟨s, log, h, hend⟩ := (Machine.Run.start (m := machine Unit 0)).extend
    (fun _ _ => true) (fun _ _ _ => trivial) (firstQuery ++ execAndAsk)
    (fun _ log => decide (log.map (·.shown) = [.exe [0x2f, 0x61], .comm [0x61], .comm [0x61]] ∧
      log.map (fun o => decide o.Truthful) = [false, false, true])) (by decide +kernel)
  exact ⟨s, log, h, of_decide_eq_true hend⟩

end ApeShim.Disguise
