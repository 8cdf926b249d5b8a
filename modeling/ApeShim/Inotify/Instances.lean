import ApeShim.Lib.Machine
import ApeShim.Inotify.Watches

/-!
The table of emulated inotify instances and the descriptors behind it
(`shim/inotify.c`): `emu_init1`, the lookup by number, and the steps in which
instances are made, watched, scanned, torn down, and closed without the shim
being told. A pipe is known by an index, so that "the read end the caller holds"
can be said of a number that is used again.
-/

namespace ApeShim.Inotify
open Flags Trace

/-- `SHIM_IN_MAX_INSTANCES`. -/
def maxInstances : Nat := 16

def slot0 : Fin maxInstances := ⟨0, by decide⟩

/-- An open file: an end of the n-th inotify pipe, or something else. -/
inductive File
  | reader (pipe : Nat)
  | writer (pipe : Nat)
  | other (id : Nat)
  deriving DecidableEq, Repr

structure State where
  /-- `none` is a slot with `used` clear -/
  slots : Fin maxInstances → Option Inst
  files : Int → Option File
  /-- inotify pipes made so far -/
  pipes : Nat

inductive Obs
  | made (fd : Int) (pipe : Nat)
  /-- `inotify_add_watch` returned this descriptor -/
  | watch (pipe : Nat) (wd : Int)
  | closed (pipe : Nat)
  /-- a write found the reader gone -/
  | failed (pipe : Nat)
  /-- the scan thread freed the slot -/
  | ended (pipe : Nat)
  deriving DecidableEq, Repr

inductive Label
  /-- what `pipe` answered -/
  | init1 (flags : BitVec 32) (fds : Option (Int × Int))
  | addWatch (fd : Int) (path : Option Name) (mask : Mask) (host : Host) (room : Nat → Room)
      (res : Resources)
  | rmWatch (fd wd : Int) (room : Nat → Room)
  /-- the scan thread of a slot wakes and goes round -/
  | pass (i : Fin maxInstances) (host : Host) (room : Nat → Room)
  /-- it finds its instance dead and leaves -/
  | exit (i : Fin maxInstances)
  | closed (fd : Int)
  /-- an unrelated file takes the number -/
  | opened (fd : Int) (id : Nat)

def inNonblock : BitVec 32 := 0x000800#32
def inCloexec : BitVec 32 := 0x080000#32

/-- What a call leaves behind, what it returns, and what there is to see of it. -/
structure Outcome (α : Type) where
  state : State
  result : Except Err α
  obs : List Obs

/-- The write that found the reader gone, if there was one between the two states. -/
def failedObs (g g' : Inst) : List Obs := if !g.dead && g'.dead then [.failed g.pipe] else []

namespace State

def init : State := ⟨fun _ => none, fun _ => none, 0⟩

/-- `inst_by_fd_locked`. -/
def instByFd (s : State) (fd : Int) : Option (Fin maxInstances × Inst) :=
  (List.finRange maxInstances).findSome? fun i =>
    match s.slots i with
    | some g => if !g.dead && g.rfd = fd then some (i, g) else none
    | none => none

def readerOpen (s : State) (g : Inst) : Bool := s.files g.rfd = some (.reader g.pipe)

/-- SIGPIPE is ignored, so a write to a pipe without a reader just fails. -/
def writes (s : State) (g : Inst) (room : Nat → Room) (k : Nat) : Written :=
  if s.readerOpen g then .took (room k) else .failed

def put (s : State) (i : Fin maxInstances) (g : Inst) : State :=
  { s with slots := Function.update s.slots i (some g) }

def freeSlot (s : State) : Option (Fin maxInstances) :=
  (List.finRange maxInstances).find? fun i => (s.slots i).isNone

/-- A new instance in slot `i`, over the pipe with these two ends. -/
def install (s : State) (i : Fin maxInstances) (p0 p1 : Int) : State where
  slots := Function.update s.slots i (some ⟨p0, p1, 1, false, false, false, [], s.pipes, []⟩)
  files := Function.update (Function.update s.files p0 (some (.reader s.pipes))) p1
    (some (.writer s.pipes))
  pipes := s.pipes + 1

/-- `emu_init1`. The `fcntl` calls on the two ends change nothing modelled here. -/
def emuInit1 (s : State) (flags : BitVec 32) (fds : Option (Int × Int)) : Outcome Int :=
  if has flags (~~~(inNonblock ||| inCloexec)) then ⟨s, .error .einval, []⟩
  else
    match s.freeSlot with
    | none => ⟨s, .error .emfile, []⟩
    | some i =>
        match fds with
        | none => ⟨s, .error .host, []⟩
        | some (p0, p1) => ⟨s.install i p0 p1, .ok p0, [.made p0 s.pipes]⟩

/-- `emu_add_watch` up to the instance's lock: the checks that need no instance,
the existence check, the lookup. -/
def target (s : State) (fd : Int) (path : Option Name) (mask : Mask) (host : Host) :
    Except Err (Fin maxInstances × Inst × Name × Stat) :=
  match path with
  | none => .error .efault
  | some path =>
      if !has mask inAllEvents then .error .einval
      else
        match host.stat (has mask inDontFollow) path with
        | .gone => .error .host
        | .error => .error .host
        | .found st =>
            if has mask inOnlydir && !st.isdir then .error .enotdir
            else
              match s.instByFd fd with
              | none => .error .ebadf
              | some (i, g) => .ok (i, g, path, st)

def emuAddWatch (s : State) (fd : Int) (path : Option Name) (mask : Mask) (host : Host)
    (room : Nat → Room) (res : Resources) : Outcome Int :=
  match s.target fd path mask host with
  | .error e => ⟨s, .error e, []⟩
  | .ok (i, g, path, st) =>
      let r := g.addWatch (s.writes g room) (host.opendir path) res path mask st
      ⟨s.put i r.1, r.2,
        (match r.2 with | .ok wd => [.watch g.pipe wd] | .error _ => []) ++ failedObs g r.1⟩

def emuRmWatch (s : State) (fd wd : Int) (room : Nat → Room) : Outcome Unit :=
  match s.instByFd fd with
  | none => ⟨s, .error .ebadf, []⟩
  | some (i, g) =>
      let r := g.rmWatch (s.writes g room) wd
      ⟨s.put i r.1, r.2, failedObs g r.1⟩

/-- The end of `scan_thread`: the slot is given back and the write end closed. -/
def teardown (s : State) (i : Fin maxInstances) (g : Inst) : State :=
  { s with
    slots := Function.update s.slots i none
    files := Function.update s.files g.wfd none }

end State

/-! ## The machine -/

/-- The host gives out only numbers that are not open, and the program closes
only what it was given. -/
def State.step (s : State) : Label → Option (State × List Obs)
  | .init1 flags fds =>
      if fds.all fun p => p.1 ≠ p.2 && s.files p.1 = none && s.files p.2 = none then
        let r := s.emuInit1 flags fds
        some (r.state, r.obs)
      else none
  | .addWatch fd path mask host room res =>
      let r := s.emuAddWatch fd path mask host room res
      some (r.state, r.obs)
  | .rmWatch fd wd room =>
      let r := s.emuRmWatch fd wd room
      some (r.state, r.obs)
  | .pass i host room =>
      match s.slots i with
      | none => none
      | some g =>
          if g.scanning && !g.dead then
            let g' := g.pass (s.writes g room) host
            some (s.put i g', failedObs g g')
          else none
  | .exit i =>
      match s.slots i with
      | none => none
      | some g =>
          if g.scanning && g.dead then some (s.teardown i g, [.ended g.pipe]) else none
  | .closed fd =>
      match s.files fd with
      | some (.reader p) => some ({ s with files := Function.update s.files fd none }, [.closed p])
      | some (.other _) => some ({ s with files := Function.update s.files fd none }, [])
      | _ => none
  | .opened fd id =>
      if s.files fd = none then
        some ({ s with files := Function.update s.files fd (some (.other id)) }, [])
      else none

def machine : Machine State Label Obs := ⟨State.init, State.step⟩

/-! ## What one step can do -/

inductive Move (s : State) (a : Label) : State → List Obs → Prop
  | stay : Move s a s []
  | made (i : Fin maxInstances) (flags : BitVec 32) (p0 p1 : Int)
      (ha : a = .init1 flags (some (p0, p1))) (hslot : s.slots i = none) (hne : p0 ≠ p1)
      (h0 : s.files p0 = none) (h1 : s.files p1 = none) :
      Move s a (s.install i p0 p1) [.made p0 s.pipes]
  | evolved (i : Fin maxInstances) (g g' : Inst) (room : Nat → Room) (out : List Obs)
      (hg : s.slots i = some g) (hev : g.Evolves (s.writes g room) g')
      (hout : ∀ o ∈ out, ∃ wd, o = .watch g.pipe wd) :
      Move s a (s.put i g') (out ++ failedObs g g')
  | ended (i : Fin maxInstances) (g : Inst) (hg : s.slots i = some g) (hdead : g.dead = true) :
      Move s a (s.teardown i g) [.ended g.pipe]
  | closed (fd : Int) (p : Nat) (hf : s.files fd = some (.reader p)) :
      Move s a { s with files := Function.update s.files fd none } [.closed p]
  | released (fd : Int) (id : Nat) (hf : s.files fd = some (.other id)) :
      Move s a { s with files := Function.update s.files fd none } []
  | opened (fd : Int) (id : Nat) (hf : s.files fd = none) :
      Move s a { s with files := Function.update s.files fd (some (.other id)) } []

theorem instByFd_some {s : State} {fd : Int} {i : Fin maxInstances} {g : Inst}
    (h : s.instByFd fd = some (i, g)) : s.slots i = some g ∧ g.dead = false ∧ g.rfd = fd := by
  obtain ⟨j, -, hj⟩ := List.exists_of_findSome?_eq_some h
  cases hs : s.slots j with
  | none => simp [hs] at hj
  | some g₀ =>
    simp only [hs, Option.ite_none_right_eq_some, Bool.and_eq_true, Bool.not_eq_true',
      decide_eq_true_eq, Option.some.injEq, Prod.mk.injEq] at hj
    obtain ⟨⟨hd, hr⟩, rfl, rfl⟩ := hj
    exact ⟨hs, hd, hr⟩

theorem freeSlot_some {s : State} {i : Fin maxInstances} (h : s.freeSlot = some i) :
    s.slots i = none := by
  have := List.find?_some h
  simpa using this

theorem target_ok {s : State} {fd : Int} {path : Option Name} {mask : Mask} {host : Host}
    {i : Fin maxInstances} {g : Inst} {p : Name} {st : Stat}
    (h : s.target fd path mask host = .ok (i, g, p, st)) :
    s.instByFd fd = some (i, g) ∧ has mask inAllEvents = true := by
  unfold State.target at h
  cases path with
  | none => cases h
  | some q =>
    simp only at h
    split at h
    · cases h
    · rename_i hm
      split at h
      · cases h
      · cases h
      · split at h
        · cases h
        · split at h
          · cases h
          · rename_i hi
            simp only [Except.ok.injEq, Prod.mk.injEq] at h
            obtain ⟨rfl, rfl, -, -⟩ := h
            exact ⟨hi, by simpa using hm⟩

/-- `emu_init1` fails and changes nothing, or fills a free slot. -/
theorem emuInit1_cases (s : State) (flags : BitVec 32) (fds : Option (Int × Int)) :
    ((s.emuInit1 flags fds).state = s ∧ (s.emuInit1 flags fds).obs = []) ∨
    ∃ i p0 p1, fds = some (p0, p1) ∧ s.slots i = none ∧
      (s.emuInit1 flags fds).state = s.install i p0 p1 ∧
      (s.emuInit1 flags fds).obs = [.made p0 s.pipes] := by
  unfold State.emuInit1
  split
  · exact Or.inl ⟨rfl, rfl⟩
  · split
    · exact Or.inl ⟨rfl, rfl⟩
    · rename_i i hi
      cases fds with
      | none => exact Or.inl ⟨rfl, rfl⟩
      | some p => exact Or.inr ⟨i, p.1, p.2, rfl, freeSlot_some hi, rfl, rfl⟩

theorem emuInit1_move (s : State) (flags : BitVec 32) (fds : Option (Int × Int))
    (hfds : fds.all (fun p => p.1 ≠ p.2 && s.files p.1 = none && s.files p.2 = none) = true) :
    Move s (.init1 flags fds) (s.emuInit1 flags fds).state (s.emuInit1 flags fds).obs := by
  rcases emuInit1_cases s flags fds with ⟨hs, ho⟩ | ⟨i, p0, p1, rfl, hi, hs, ho⟩
  · rw [hs, ho]
    exact .stay
  · rw [hs, ho]
    simp only [Option.all_some, Bool.and_eq_true, decide_eq_true_eq] at hfds
    exact .made i flags p0 p1 rfl hi hfds.1.1 hfds.1.2 hfds.2

theorem emuAddWatch_move (s : State) (fd : Int) (path : Option Name) (mask : Mask) (host : Host)
    (room : Nat → Room) (res : Resources) :
    Move s (.addWatch fd path mask host room res)
      (s.emuAddWatch fd path mask host room res).state
      (s.emuAddWatch fd path mask host room res).obs := by
  unfold State.emuAddWatch
  split
  · exact .stay
  · rename_i i g p st ht
    refine .evolved i g _ room _ (instByFd_some (target_ok ht).1).1 (.addWatch _ _ _ _ _ _) ?_
    intro o ho
    split at ho
    · exact ⟨_, List.mem_singleton.mp ho⟩
    · cases ho

theorem emuRmWatch_move (s : State) (fd wd : Int) (room : Nat → Room) :
    Move s (.rmWatch fd wd room) (s.emuRmWatch fd wd room).state (s.emuRmWatch fd wd room).obs := by
  unfold State.emuRmWatch
  split
  · exact .stay
  · rename_i i g hi
    exact .evolved i g _ room [] (instByFd_some hi).1 (Inst.Emitted.rmWatch _ _).toEvolves (by simp)

theorem step_move {s s' : State} {a : Label} {out : List Obs}
    (h : State.step s a = some (s', out)) : Move s a s' out := by
  cases a with
  | init1 flags fds =>
    simp only [State.step, Option.ite_none_right_eq_some, Option.some.injEq, Prod.mk.injEq] at h
    obtain ⟨hfds, rfl, rfl⟩ := h
    exact emuInit1_move s flags fds hfds
  | addWatch fd path mask host room res =>
    simp only [State.step, Option.some.injEq, Prod.mk.injEq] at h
    obtain ⟨rfl, rfl⟩ := h
    exact emuAddWatch_move s fd path mask host room res
  | rmWatch fd wd room =>
    simp only [State.step, Option.some.injEq, Prod.mk.injEq] at h
    obtain ⟨rfl, rfl⟩ := h
    exact emuRmWatch_move s fd wd room
  | pass i host room =>
    simp only [State.step] at h
    cases hg : s.slots i with
    | none => simp [hg] at h
    | some g =>
      simp only [hg, Option.ite_none_right_eq_some, Option.some.injEq, Prod.mk.injEq] at h
      obtain ⟨-, rfl, rfl⟩ := h
      exact .evolved i g _ room [] hg (Inst.Emitted.pass host g).toEvolves (by simp)
  | exit i =>
    simp only [State.step] at h
    cases hg : s.slots i with
    | none => simp [hg] at h
    | some g =>
      simp only [hg, Option.ite_none_right_eq_some, Bool.and_eq_true, Option.some.injEq,
        Prod.mk.injEq] at h
      obtain ⟨⟨-, hd⟩, rfl, rfl⟩ := h
      exact .ended i g hg hd
  | closed fd =>
    simp only [State.step] at h
    split at h
    · rename_i p hf
      simp only [Option.some.injEq, Prod.mk.injEq] at h
      obtain ⟨rfl, rfl⟩ := h
      exact .closed fd p hf
    · rename_i id hf
      simp only [Option.some.injEq, Prod.mk.injEq] at h
      obtain ⟨rfl, rfl⟩ := h
      exact .released fd id hf
    · cases h
  | opened fd id =>
    simp only [State.step, Option.ite_none_right_eq_some, Option.some.injEq, Prod.mk.injEq] at h
    obtain ⟨hf, rfl, rfl⟩ := h
    exact .opened fd id hf

end ApeShim.Inotify
