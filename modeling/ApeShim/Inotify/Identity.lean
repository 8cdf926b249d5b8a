import ApeShim.Inotify.Instances

/-!
Which instance a descriptor number names. The shim is not told of a close, so a
slot outlives its descriptor until a write fails; the lookup by number takes the
first live slot that carries the number.
-/

namespace ApeShim.Inotify
open Flags Trace

/-! ## Descriptors and slots, in every run -/

structure Wired (s : State) : Prop where
  pipe_lt : ∀ {i g}, s.slots i = some g → g.pipe < s.pipes
  pipe_inj : ∀ {i j g h}, s.slots i = some g → s.slots j = some h → g.pipe = h.pipe → i = j
  /-- the shim keeps its write ends -/
  writer : ∀ {i g}, s.slots i = some g → s.files g.wfd = some (.writer g.pipe)
  reader_lt : ∀ {fd p}, s.files fd = some (.reader p) → p < s.pipes
  dead_closed : ∀ {i g}, s.slots i = some g → g.dead = true → s.readerOpen g = false
  /-- an open read end is the number of its instance, which is still there -/
  reader_slot : ∀ {fd p}, s.files fd = some (.reader p) →
    ∃ i g, s.slots i = some g ∧ g.pipe = p ∧ g.rfd = fd

namespace Wired

theorem start : Wired State.init where
  pipe_lt h := by simp [State.init] at h
  pipe_inj h := by simp [State.init] at h
  writer h := by simp [State.init] at h
  reader_lt h := by simp [State.init] at h
  dead_closed h := by simp [State.init] at h
  reader_slot h := by simp [State.init] at h

theorem readerOpen_iff (s : State) (g : Inst) :
    s.readerOpen g = true ↔ s.files g.rfd = some (.reader g.pipe) := by
  simp [State.readerOpen]

/-- Only the read ends decide what `readerOpen` says. -/
theorem readerOpen_of_reader {s s' : State} {g g' : Inst} (hr : g'.rfd = g.rfd)
    (hp : g'.pipe = g.pipe)
    (hf : ∀ fd p, s'.files fd = some (.reader p) → s.files fd = some (.reader p))
    (h : s.readerOpen g = false) : s'.readerOpen g' = false := by
  rw [Bool.eq_false_iff] at h ⊢
  intro ho
  apply h
  rw [readerOpen_iff] at ho ⊢
  rw [hr, hp] at ho
  exact hf _ _ ho

variable {s : State}

/-- A slot of the new state is the new instance, or the slot it was. -/
theorem slots_update {i j : Fin maxInstances} {g : Option Inst} {h : Inst}
    (hj : Function.update s.slots i g j = some h) :
    (j = i ∧ g = some h) ∨ (j ≠ i ∧ s.slots j = some h) := by
  by_cases hji : j = i
  · subst hji
    simp only [Function.update_self] at hj
    exact Or.inl ⟨rfl, hj⟩
  · rw [Function.update_of_ne hji] at hj
    exact Or.inr ⟨hji, hj⟩

theorem put (w : Wired s) {i : Fin maxInstances} {g g' : Inst} {room : Nat → Room}
    (hg : s.slots i = some g) (hev : g.Evolves (s.writes g room) g') : Wired (s.put i g') where
  pipe_lt {j h} hj := by
    rcases slots_update hj with ⟨-, hh⟩ | ⟨-, hj⟩
    · cases hh
      rw [hev.pipe]
      exact w.pipe_lt hg
    · exact w.pipe_lt hj
  pipe_inj {j k h h'} hj hk hp := by
    rcases slots_update hj with ⟨rfl, hh⟩ | ⟨-, hj₀⟩
    · rcases slots_update hk with ⟨rfl, -⟩ | ⟨-, hk₀⟩
      · rfl
      · cases hh
        exact w.pipe_inj hg hk₀ (hev.pipe.symm.trans hp)
    · rcases slots_update hk with ⟨rfl, hh⟩ | ⟨-, hk₀⟩
      · cases hh
        exact w.pipe_inj hj₀ hg (hp.trans hev.pipe)
      · exact w.pipe_inj hj₀ hk₀ hp
  writer {j h} hj := by
    rcases slots_update hj with ⟨-, hh⟩ | ⟨-, hj⟩
    · cases hh
      rw [hev.wfd, hev.pipe]
      exact w.writer hg
    · exact w.writer hj
  reader_lt := w.reader_lt
  dead_closed {j h} hj hd := by
    rcases slots_update hj with ⟨-, hh⟩ | ⟨-, hj⟩
    · cases hh
      have hclosed : s.readerOpen g = false := by
        rcases hev.reason hd with hd | ⟨k, hk⟩
        · exact w.dead_closed hg hd
        · cases ho : s.readerOpen g with
          | false => rfl
          | true => simp [State.writes, ho] at hk
      exact readerOpen_of_reader hev.rfd hev.pipe (fun _ _ => id) hclosed
    · exact w.dead_closed hj hd
  reader_slot {fd p} hf := by
    obtain ⟨j, h, hj, hp, hr⟩ := w.reader_slot hf
    by_cases hji : j = i
    · subst hji
      rw [hg] at hj
      cases hj
      exact ⟨j, g', by simp [State.put], hev.pipe.trans hp, hev.rfd.trans hr⟩
    · exact ⟨j, h, by simp [State.put, hji, hj], hp, hr⟩

/-- The new pipe's index has not been used, and its two numbers were free. -/
theorem install (w : Wired s) {i : Fin maxInstances} {p0 p1 : Int} (hslot : s.slots i = none)
    (hne : p0 ≠ p1) (h0 : s.files p0 = none) (h1 : s.files p1 = none) :
    Wired (s.install i p0 p1) where
  pipe_lt {j h} hj := by
    rcases slots_update hj with ⟨-, hh⟩ | ⟨-, hj⟩
    · cases hh
      exact Nat.lt_succ_self _
    · exact Nat.lt_succ_of_lt (w.pipe_lt hj)
  pipe_inj {j k h h'} hj hk hp := by
    rcases slots_update hj with ⟨rfl, hh⟩ | ⟨-, hj₀⟩
    · rcases slots_update hk with ⟨rfl, -⟩ | ⟨-, hk₀⟩
      · rfl
      · cases hh
        have := w.pipe_lt hk₀
        simp only at hp
        omega
    · rcases slots_update hk with ⟨rfl, hh⟩ | ⟨-, hk₀⟩
      · cases hh
        have := w.pipe_lt hj₀
        simp only at hp
        omega
      · exact w.pipe_inj hj₀ hk₀ hp
  writer {j h} hj := by
    rcases slots_update hj with ⟨-, hh⟩ | ⟨-, hj⟩
    · cases hh
      simp [State.install]
    · have hw := w.writer hj
      have n0 : h.wfd ≠ p0 := by rintro rfl; simp [h0] at hw
      have n1 : h.wfd ≠ p1 := by rintro rfl; simp [h1] at hw
      simp [State.install, n0, n1, hw]
  reader_lt {fd p} hf := by
    simp only [State.install, Function.update_apply] at hf ⊢
    split at hf
    · cases hf
    · split at hf
      · cases hf
        exact Nat.lt_succ_self _
      · exact Nat.lt_succ_of_lt (w.reader_lt hf)
  dead_closed {j h} hj hd := by
    rcases slots_update hj with ⟨-, hh⟩ | ⟨-, hj⟩
    · cases hh
      cases hd
    · have hlt := w.pipe_lt hj
      have hc := w.dead_closed hj hd
      rw [Bool.eq_false_iff, Ne, readerOpen_iff] at hc ⊢
      intro ho
      simp only [State.install, Function.update_apply] at ho
      split at ho
      · cases ho
      · split at ho
        · simp only [Option.some.injEq, File.reader.injEq] at ho
          omega
        · exact hc ho
  reader_slot {fd p} hf := by
    simp only [State.install, Function.update_apply] at hf
    split at hf
    · cases hf
    · split at hf
      · rename_i hfd
        cases hf
        exact ⟨i, _, by simp [State.install]; rfl, rfl, hfd.symm⟩
      · obtain ⟨j, h, hj, hp, hr⟩ := w.reader_slot hf
        have hji : j ≠ i := by rintro rfl; simp [hslot] at hj
        exact ⟨j, h, by simp [State.install, hji, hj], hp, hr⟩

theorem teardown (w : Wired s) {i : Fin maxInstances} {g : Inst} (hg : s.slots i = some g)
    (hd : g.dead = true) : Wired (s.teardown i g) := by
  have old : ∀ {j h}, (s.teardown i g).slots j = some h → j ≠ i ∧ s.slots j = some h := by
    intro j h hj
    rcases slots_update hj with ⟨-, hh⟩ | hj
    · cases hh
    · exact hj
  have files : ∀ fd p, (s.teardown i g).files fd = some (.reader p) →
      s.files fd = some (.reader p) := by
    intro fd p hf
    simp only [State.teardown, Function.update_apply] at hf
    split at hf
    · cases hf
    · exact hf
  refine ⟨fun hj => w.pipe_lt (old hj).2, fun hj hk => w.pipe_inj (old hj).2 (old hk).2, ?_,
    fun hf => w.reader_lt (files _ _ hf),
    fun hj hd => readerOpen_of_reader rfl rfl files (w.dead_closed (old hj).2 hd), ?_⟩
  · intro j h hj
    have hw := w.writer (old hj).2
    have hne : h.wfd ≠ g.wfd := by
      intro he
      have := w.writer hg
      rw [← he, hw] at this
      simp only [Option.some.injEq, File.writer.injEq] at this
      exact (old hj).1 (w.pipe_inj (old hj).2 hg this)
    simp [State.teardown, hne, hw]
  · intro fd p hf
    obtain ⟨j, h, hj, hp, hr⟩ := w.reader_slot (files _ _ hf)
    have hji : j ≠ i := by
      rintro rfl
      rw [hg] at hj
      cases hj
      have hc := w.dead_closed hg hd
      rw [Bool.eq_false_iff, Ne, readerOpen_iff, hr, hp] at hc
      exact hc (files _ _ hf)
    exact ⟨j, h, by simp [State.teardown, hji, hj], hp, hr⟩

/-- One number changes hands, and not to a pipe. -/
theorem setFile (w : Wired s) {fd : Int} {f : Option File}
    (hold : ∀ p, s.files fd ≠ some (.writer p)) (hnew : ∀ p, f ≠ some (.reader p)) :
    Wired { s with files := Function.update s.files fd f } := by
  have files : ∀ fd' p, Function.update s.files fd f fd' = some (.reader p) →
      s.files fd' = some (.reader p) := by
    intro fd' p hf
    simp only [Function.update_apply] at hf
    split at hf
    · exact absurd hf (hnew p)
    · exact hf
  refine ⟨w.pipe_lt, w.pipe_inj, ?_, fun hf => w.reader_lt (files _ _ hf),
    fun hj hd => readerOpen_of_reader rfl rfl files (w.dead_closed hj hd),
    fun hf => w.reader_slot (files _ _ hf)⟩
  intro j h hj
  have hw := w.writer hj
  have hne : h.wfd ≠ fd := by rintro rfl; exact hold _ hw
  simp [hne, hw]

theorem move {s' : State} {a : Label} {out : List Obs} (w : Wired s) (h : Move s a s' out) : Wired s' := by
  cases h with
  | stay => exact w
  | made i flags p0 p1 ha hslot hne h0 h1 => exact w.install hslot hne h0 h1
  | evolved i g g' room out hg hev hout => exact w.put hg hev
  | ended i g hg hd => exact w.teardown hg hd
  | closed fd p hf => exact w.setFile (by simp [hf]) (by simp)
  | released fd id hf => exact w.setFile (by simp [hf]) (by simp)
  | opened fd id hf => exact w.setFile (by simp [hf]) (by simp)

theorem of_run {ok : State → Label → Prop} {log : List Obs} (h : machine.Run ok s log) :
    Wired s := by
  refine Machine.Run.invariant (P := fun s _ => Wired s) start ?_ h
  intro s log a s' out w _ hs
  exact w.move (step_move hs)

end Wired

/-! ## The most recent instance with a number -/

def madeAs (fd : Int) : Obs → Option Nat
  | .made f p => if f = fd then some p else none
  | _ => none

/-- The pipe of the instance most recently created with this number. -/
def lastMade (fd : Int) (log : List Obs) : Option Nat := log.findSome? (madeAs fd)

/-- At most one live instance answers to a number, `inst_by_fd_locked` finds the
most recent one, and a read end the caller holds is that instance's. -/
structure Identity (s : State) (log : List Obs) : Prop where
  unique : ∀ {i j g h}, s.slots i = some g → s.slots j = some h → g.dead = false →
    h.dead = false → g.rfd = h.rfd → i = j
  latest : ∀ {fd i g}, s.instByFd fd = some (i, g) → lastMade fd log = some g.pipe
  held : ∀ {fd p}, s.files fd = some (.reader p) →
    ∃ i g, s.instByFd fd = some (i, g) ∧ g.pipe = p

/-- The number `pipe` gave the new read end is not the number of a live slot. -/
def NumberFree (s : State) : Label → Prop
  | .init1 _ (some (p0, _)) => ∀ i g, s.slots i = some g → g.dead = false → g.rfd ≠ p0
  | _ => True

def Latest (s : State) (log : List Obs) : Prop :=
  ∀ i g, s.slots i = some g → g.dead = false → lastMade g.rfd log = some g.pipe

theorem lastMade_append {fd : Int} {out log : List Obs} (h : ∀ o ∈ out, madeAs fd o = none) :
    lastMade fd (out ++ log) = lastMade fd log := by
  simp only [lastMade, List.findSome?_append]
  rw [List.findSome?_eq_none_iff.mpr h]
  rfl

theorem madeAs_failedObs (fd : Int) (g g' : Inst) : ∀ o ∈ failedObs g g', madeAs fd o = none := by
  intro o ho
  unfold failedObs at ho
  split at ho
  · rw [List.mem_singleton.mp ho]
    rfl
  · cases ho

/-- A step that makes no instance leaves what every live slot answers to. -/
theorem Latest.keep {s s' : State} {log out : List Obs} (h : Latest s log)
    (hout : ∀ fd, ∀ o ∈ out, madeAs fd o = none)
    (hslots : ∀ i g, s'.slots i = some g → g.dead = false →
      ∃ g₀, s.slots i = some g₀ ∧ g₀.dead = false ∧ g.rfd = g₀.rfd ∧ g.pipe = g₀.pipe) :
    Latest s' (out ++ log) := by
  intro i g hg hd
  obtain ⟨g₀, hg₀, hd₀, hr, hp⟩ := hslots i g hg hd
  rw [lastMade_append (hout _), hr, hp]
  exact h i g₀ hg₀ hd₀

theorem Latest.move {s s' : State} {log out : List Obs} {a : Label} (h : Latest s log)
    (hok : NumberFree s a) (hm : Move s a s' out) : Latest s' (out ++ log) := by
  cases hm with
  | stay => exact h
  | made i flags p0 p1 ha hslot hne h0 h1 =>
    subst ha
    intro j g hj hd
    rcases Wired.slots_update hj with ⟨-, hg⟩ | ⟨-, hj⟩
    · cases hg
      simp [lastMade, madeAs]
    · have hne := hok j g hj hd
      rw [lastMade_append (by simp [madeAs, hne.symm])]
      exact h j g hj hd
  | evolved i g g' room out hg hev hout =>
    refine h.keep ?_ ?_
    · intro fd o ho
      rcases List.mem_append.mp ho with ho | ho
      · obtain ⟨wd, rfl⟩ := hout o ho
        rfl
      · exact madeAs_failedObs fd g g' o ho
    · intro j k hj hd
      rcases Wired.slots_update hj with ⟨rfl, hk⟩ | ⟨-, hj⟩
      · cases hk
        exact ⟨g, hg, hev.live hd, hev.rfd, hev.pipe⟩
      · exact ⟨k, hj, hd, rfl, rfl⟩
  | ended i g hg hdead =>
    refine h.keep (by simp [madeAs]) ?_
    intro j k hj hd
    rcases Wired.slots_update hj with ⟨-, hk⟩ | ⟨-, hj⟩
    · cases hk
    · exact ⟨k, hj, hd, rfl, rfl⟩
  | closed fd p hf => exact h.keep (by simp [madeAs]) fun j k hj hd => ⟨k, hj, hd, rfl, rfl⟩
  | released fd id hf => exact h.keep (by simp) fun j k hj hd => ⟨k, hj, hd, rfl, rfl⟩
  | opened fd id hf => exact h.keep (by simp) fun j k hj hd => ⟨k, hj, hd, rfl, rfl⟩

theorem Latest.of_run {s : State} {log : List Obs} (h : machine.Run NumberFree s log) :
    Latest s log := by
  refine Machine.Run.invariant (P := Latest) ?_ ?_ h
  · intro i g hg
    simp [machine, State.init] at hg
  · intro s log a s' out hl hok hs
    exact hl.move hok (step_move hs)

/-- A live slot with this number is found, if not by itself then by an earlier one. -/
theorem instByFd_isSome {s : State} {i : Fin maxInstances} {g : Inst} (hg : s.slots i = some g)
    (hd : g.dead = false) : ∃ j h, s.instByFd g.rfd = some (j, h) := by
  cases hf : s.instByFd g.rfd with
  | some r => exact ⟨r.1, r.2, rfl⟩
  | none =>
    have := List.findSome?_eq_none_iff.mp hf i (List.mem_finRange i)
    simp [hg, hd] at this

theorem Identity.of_latest {s : State} {log : List Obs} (w : Wired s) (h : Latest s log) :
    Identity s log where
  unique {i j g k} hi hj hg hk hr := by
    have h₁ := h i g hi hg
    rw [hr, h j k hj hk] at h₁
    exact w.pipe_inj hi hj (Option.some.inj h₁).symm
  latest {fd i g} hi := by
    obtain ⟨hg, hd, rfl⟩ := instByFd_some hi
    exact h i g hg hd
  held {fd p} hf := by
    obtain ⟨i, g, hg, rfl, rfl⟩ := w.reader_slot hf
    have hlive : g.dead = false := by
      cases hd : g.dead with
      | false => rfl
      | true =>
        have := w.dead_closed hg hd
        simp [State.readerOpen, hf] at this
    obtain ⟨j, k, hj⟩ := instByFd_isSome hg hlive
    obtain ⟨hk, hkd, hkr⟩ := instByFd_some hj
    have h₁ := h j k hk hkd
    rw [hkr, h i g hg hlive] at h₁
    exact ⟨j, k, hj, (Option.some.inj h₁).symm⟩

/-- **Instance identity.** In a run in which no new read end takes the number of
a live slot, a number names one live instance, the newest with it, and the one
whose read end the caller holds. The first new read end that does take such a
number breaks this. -/
theorem descriptor_names_newest_instance (s : State) (log : List Obs) :
    (machine.Run NumberFree s log → Identity s log) ∧
    (∀ flags fds s' out, machine.Run anyStep s log →
      machine.step s (.init1 flags fds) = some (s', out) → out ≠ [] →
      ¬ NumberFree s (.init1 flags fds) → ¬ Identity s' (out ++ log)) := by
  constructor
  · intro h
    exact Identity.of_latest (Wired.of_run h) (Latest.of_run h)
  · intro flags fds s' out h hs hne hnf hid
    simp only [machine, State.step, Option.ite_none_right_eq_some, Option.some.injEq,
      Prod.mk.injEq] at hs
    obtain ⟨-, rfl, rfl⟩ := hs
    rcases emuInit1_cases s flags fds with ⟨-, ho⟩ | ⟨i, p0, p1, rfl, hslot, hs, -⟩
    · exact hne ho
    · simp only [NumberFree, not_forall, not_not] at hnf
      obtain ⟨j, g, hg, hd, rfl⟩ := hnf
      rw [hs] at hid
      have hji : j ≠ i := by rintro rfl; simp [hslot] at hg
      have hj : (s.install i g.rfd p1).slots j = some g := by simp [State.install, hji, hg]
      have hi : (s.install i g.rfd p1).slots i =
          some ⟨g.rfd, p1, 1, false, false, false, [], s.pipes, []⟩ := by simp [State.install]
      exact hji (hid.unique hj hi hd rfl rfl)

/-- The first instance is never watched, so nothing is ever written for it: its
slot keeps the number 3 after the close and hides the second instance. -/
theorem stale_slot_hides_new_instance :
    ∃ s log, machine.Run anyStep s log ∧ s.files 3 = some (.reader 1) ∧
      (s.instByFd 3).map (fun r => r.2.pipe) = some 0 ∧ ¬ Identity s log := by
  have hstart : machine.Run anyStep machine.init [] := .start
  obtain ⟨s, log, hrun, h⟩ := hstart.extend
    (fun _ _ => true) (fun _ _ _ => trivial)
    [.init1 0#32 (some (3, 4)), .closed 3, .init1 0#32 (some (3, 5))]
    (fun s _ => s.files 3 = some (.reader 1) ∧ (s.instByFd 3).map (fun r => r.2.pipe) = some 0)
    (by decide)
  simp only [decide_eq_true_eq] at h
  refine ⟨s, log, hrun, h.1, h.2, ?_⟩
  intro hid
  obtain ⟨i, g, hi, hp⟩ := hid.held h.1
  rw [hi] at h
  simp [hp] at h

def noFile : Host := ⟨fun _ _ => .gone, fun _ => .gone⟩

def oneFile : Host := ⟨fun _ _ => .found ⟨1, 0, 0, 0, 0, false⟩, fun _ => .error⟩

/-- The watched file vanishes after the close, so the first instance is dead by
the time its number is used again. -/
theorem descriptor_names_newest_instance_reused :
    ∃ s log, machine.Run NumberFree s log ∧ Identity s log ∧ s.files 3 = some (.reader 1) ∧
      (s.slots slot0).isSome := by
  have hstart : machine.Run NumberFree machine.init [] := .start
  obtain ⟨s, log, hrun, h⟩ := hstart.extend
    (fun s a =>
      match a with
      | .init1 _ (some (p0, _)) =>
          (List.finRange maxInstances).all fun i => (s.slots i).all fun g => g.dead || g.rfd ≠ p0
      | _ => true)
    (by
      intro s a h
      unfold NumberFree
      split
      · rename_i p0 p1
        simp only [List.all_eq_true, List.mem_finRange, true_imp_iff] at h
        intro i g hg hd
        have := h i
        simpa [hg, hd] using this
      · trivial)
    [.init1 0#32 (some (3, 4)),
      .addWatch 3 (some [97]) inModify oneFile (fun _ => .ok) ⟨true, true, true⟩,
      .closed 3, .pass slot0 noFile (fun _ => .ok), .init1 0#32 (some (3, 5))]
    (fun s _ => s.files 3 = some (.reader 1) ∧ (s.slots slot0).isSome)
    (by decide)
  simp only [decide_eq_true_eq] at h
  exact ⟨s, log, hrun, (descriptor_names_newest_instance s log).1 hrun, h.1, h.2⟩

end ApeShim.Inotify
