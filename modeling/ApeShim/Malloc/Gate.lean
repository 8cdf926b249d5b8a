import ApeShim.Lib.Machine
import Mathlib.Data.Finset.Card
import Mathlib.Data.List.Nodup
import Mathlib.Logic.Function.Basic

/-!
The gate in front of the heap locks of `shim/dlmalloc.c`: `malloc_needs_lock`, `malloc_lock` and
`malloc_unlk` over nsync mutexes. Each read and each write of `malloc_threaded` and of
`_pthread_count` is a step, and the steps of the threads come in any order. `clone()` counts a
thread before it can run; a thread is counted until it ends, and neither makes threads nor ends
inside malloc.
-/

namespace ApeShim.Malloc
open Trace

/-! ## Threads and heaps -/

/-- Where a thread stands. -/
inductive Phase (L : Type*)
  | gone
  /-- counted by `clone()`, not running yet -/
  | born
  | running
  /-- `malloc_threaded` was false -/
  | asked (lk : L)
  /-- `_pthread_count` was more than 1 -/
  | many (lk : L)
  /-- about to return `malloc_threaded` -/
  | answering (lk : L)
  /-- in `nsync_mu_lock` -/
  | locking (lk : L)
  /-- in `nsync_mu_unlock` -/
  | releasing (lk : L)
  deriving DecidableEq, Repr

structure State (T L : Type*) where
  /-- `malloc_threaded` -/
  threaded : Bool
  /-- `_pthread_count` -/
  count : Nat
  /-- who owns `lk->mu` -/
  mu : L → Option T
  phase : T → Phase L
  /-- the heaps a thread is in, from the end of `malloc_lock` to the end of `malloc_unlk` -/
  inside : T → List L

inductive Label (T L : Type*)
  | clone (t u : T)
  | cloneFailed (u : T)
  | start (u : T)
  | exit (t : T)
  /-- `malloc_lock` is called and reads `malloc_threaded` -/
  | lock (t : T) (lk : L)
  | loadCount (t : T)
  | setThreaded (t : T)
  | answer (t : T)
  | acquire (t : T)
  /-- `malloc_unlk` is called and reads `malloc_threaded` -/
  | unlock (t : T) (lk : L)
  | release (t : T)

inductive Obs (T L : Type*)
  | acquired (t : T) (lk : L)
  | bypassed (t : T) (lk : L)
  | released (t : T) (lk : L)
  | skipped (t : T) (lk : L)
  /-- a mutex that is not the thread's own was unlocked -/
  | misused (t : T) (lk : L)
  deriving DecidableEq

variable {T L : Type*}

namespace State

section Threads

variable [DecidableEq T] (s : State T L) (t u : T) (p : Phase L) (lk : L)

def goto : State T L := { s with phase := Function.update s.phase t p }

def enter : State T L := { s with inside := Function.update s.inside t (lk :: s.inside t) }

@[simp] theorem goto_phase : (s.goto t p).phase u = if u = t then p else s.phase u := by
  simp only [goto, Function.update_apply]
@[simp] theorem goto_threaded : (s.goto t p).threaded = s.threaded := rfl
@[simp] theorem goto_count : (s.goto t p).count = s.count := rfl
@[simp] theorem goto_mu : (s.goto t p).mu = s.mu := rfl
@[simp] theorem goto_inside : (s.goto t p).inside = s.inside := rfl

@[simp] theorem enter_inside :
    (s.enter t lk).inside u = if u = t then lk :: s.inside t else s.inside u := by
  simp only [enter, Function.update_apply]
@[simp] theorem enter_threaded : (s.enter t lk).threaded = s.threaded := rfl
@[simp] theorem enter_count : (s.enter t lk).count = s.count := rfl
@[simp] theorem enter_mu : (s.enter t lk).mu = s.mu := rfl
@[simp] theorem enter_phase : (s.enter t lk).phase = s.phase := rfl

end Threads

section Heaps

variable [DecidableEq L] (s : State T L) (t u : T) (lk x : L) (o : Option T)

def own : State T L := { s with mu := Function.update s.mu lk o }

@[simp] theorem own_mu : (s.own lk o).mu x = if x = lk then o else s.mu x := by
  simp only [own, Function.update_apply]
@[simp] theorem own_threaded : (s.own lk o).threaded = s.threaded := rfl
@[simp] theorem own_count : (s.own lk o).count = s.count := rfl
@[simp] theorem own_phase : (s.own lk o).phase = s.phase := rfl
@[simp] theorem own_inside : (s.own lk o).inside = s.inside := rfl

variable [DecidableEq T]

def leave : State T L := { s with inside := Function.update s.inside t ((s.inside t).erase lk) }

@[simp] theorem leave_inside :
    (s.leave t lk).inside u = if u = t then (s.inside t).erase lk else s.inside u := by
  simp only [leave, Function.update_apply]
@[simp] theorem leave_threaded : (s.leave t lk).threaded = s.threaded := rfl
@[simp] theorem leave_count : (s.leave t lk).count = s.count := rfl
@[simp] theorem leave_mu : (s.leave t lk).mu = s.mu := rfl
@[simp] theorem leave_phase : (s.leave t lk).phase = s.phase := rfl

end Heaps

end State

variable [DecidableEq T] [DecidableEq L]

/-- `nsync_mu_lock` waits for the mutex to be free. -/
def step (s : State T L) : Label T L → Option (State T L × List (Obs T L))
  | .clone t u =>
      if s.phase t = .running ∧ s.inside t = [] ∧ s.phase u = .gone then
        some ({ s with count := s.count + 1 }.goto u .born, [])
      else none
  | .cloneFailed u =>
      if s.phase u = .born then some ({ s with count := s.count - 1 }.goto u .gone, []) else none
  | .start u => if s.phase u = .born then some (s.goto u .running, []) else none
  | .exit t =>
      if s.phase t = .running ∧ s.inside t = [] then
        some ({ s with count := s.count - 1 }.goto t .gone, [])
      else none
  | .lock t lk =>
      if s.phase t = .running then
        some (s.goto t (if s.threaded then .answering lk else .asked lk), [])
      else none
  | .loadCount t =>
      match s.phase t with
      | .asked lk => some (s.goto t (if 1 < s.count then .many lk else .answering lk), [])
      | _ => none
  | .setThreaded t =>
      match s.phase t with
      | .many lk => some ({ s with threaded := true }.goto t (.answering lk), [])
      | _ => none
  | .answer t =>
      match s.phase t with
      | .answering lk =>
          if s.threaded then some (s.goto t (.locking lk), [])
          else some ((s.enter t lk).goto t .running, [.bypassed t lk])
      | _ => none
  | .acquire t =>
      match s.phase t with
      | .locking lk =>
          if s.mu lk = none then
            some (((s.own lk (some t)).enter t lk).goto t .running, [.acquired t lk])
          else none
      | _ => none
  | .unlock t lk =>
      if s.phase t = .running ∧ lk ∈ s.inside t then
        if s.threaded then some (s.goto t (.releasing lk), [])
        else some (s.leave t lk, [.skipped t lk])
      else none
  | .release t =>
      match s.phase t with
      | .releasing lk =>
          if s.mu lk = some t then
            some (((s.own lk none).leave t lk).goto t .running, [.released t lk])
          else some ((s.leave t lk).goto t .running, [.misused t lk])
      | _ => none

/-- The process starts with its main thread alone. -/
def gate (main : T) : Machine (State T L) (Label T L) (Obs T L) where
  init :=
    { threaded := false
      count := 1
      mu := fun _ => none
      phase := fun t => if t = main then .running else .gone
      inside := fun _ => [] }
  step := step

/-! ## The invariant -/

/-- `t` is the only thread there is, or is about to be. -/
def State.Alone (s : State T L) (t : T) : Prop := ∀ u, u ≠ t → s.phase u = .gone

/-- As long as the latch is down, only a thread that is alone is in a heap or gets into one, and
no mutex is owned; from then on a heap's mutex belongs to the thread that is in it. -/
structure GateInv (s : State T L) : Prop where
  counted : ∃ c : Finset T, (∀ t, t ∈ c ↔ s.phase t ≠ .gone) ∧ c.card = s.count
  outside : ∀ t, s.phase t = .gone ∨ s.phase t = .born → s.inside t = []
  entered : ∀ t, s.threaded = false → s.inside t ≠ [] → s.Alone t
  entering : ∀ t lk, s.threaded = false → s.phase t = .answering lk → s.Alone t
  several : ∀ t lk, s.threaded = false → s.phase t = .many lk → s.inside t = []
  unowned : s.threaded = false → ∀ lk, s.mu lk = none
  owned : s.threaded = true → ∀ t lk, lk ∈ s.inside t → s.mu lk = some t
  owner : ∀ t lk, s.mu lk = some t → lk ∈ s.inside t
  once : s.threaded = true → ∀ t, (s.inside t).Nodup
  locking : ∀ t lk, s.phase t = .locking lk → s.threaded = true
  releasing : ∀ t lk, s.phase t = .releasing lk → s.threaded = true ∧ lk ∈ s.inside t

section Steps

variable {s : State T L} {t u : T} {lk : L}

omit [DecidableEq T] [DecidableEq L] in
/-- A count of one is the thread that reads it. -/
theorem GateInv.alone (h : GateInv s) (ht : s.phase t ≠ .gone) (hc : s.count ≤ 1) : s.Alone t := by
  obtain ⟨c, hmem, hcard⟩ := h.counted
  intro u hu
  by_contra hgone
  have htwo : u = t := Finset.card_le_one.mp (hcard.trans_le hc) u ((hmem u).mpr hgone) t
    ((hmem t).mpr ht)
  exact hu htwo

omit [DecidableEq T] [DecidableEq L] in
theorem GateInv.empty (h : GateInv s) (hd : s.threaded = false) (ht : s.phase t ≠ .gone)
    (hin : s.inside t = []) : s.inside u = [] := by
  by_contra hne
  have halone := h.entered u hd hne
  have htu : t ≠ u := by
    rintro rfl
    exact hne hin
  exact ht (halone t htu)

omit [DecidableEq L] in
/-- A thread that runs goes on to `p`, and nothing else changes. -/
theorem GateInv.goto (h : GateInv s) {p : Phase L} (ht : s.phase t ≠ .gone) (hp : p ≠ .gone)
    (hb : p = .born → s.inside t = [])
    (hans : ∀ lk, p = .answering lk → s.threaded = false → s.Alone t)
    (hmany : ∀ lk, p = .many lk → s.threaded = false → s.inside t = [])
    (hlock : ∀ lk, p = .locking lk → s.threaded = true)
    (hrel : ∀ lk, p = .releasing lk → s.threaded = true ∧ lk ∈ s.inside t) :
    GateInv (s.goto t p) := by
  -- who there is does not change
  have hgone : ∀ u, (s.goto t p).phase u = .gone ↔ s.phase u = .gone := by
    intro u
    rw [State.goto_phase]
    split
    · rename_i hut
      subst hut
      exact iff_of_false hp ht
    · rfl
  have hstay : ∀ u, s.Alone u → (s.goto t p).Alone u := fun u ha v hv => (hgone v).mpr (ha v hv)
  have hwhere : ∀ u, (s.goto t p).phase u = if u = t then p else s.phase u := fun u =>
    State.goto_phase s t u p
  refine ⟨?_, fun u hu => ?_, fun u hd hin => hstay u (h.entered u hd hin), fun u lk hd hu => ?_,
    fun u lk hd hu => ?_, h.unowned, h.owned, h.owner, h.once, fun u lk hu => ?_, fun u lk hu => ?_⟩
  · obtain ⟨c, hmem, hcard⟩ := h.counted
    exact ⟨c, fun u => (hmem u).trans (not_congr (hgone u)).symm, hcard⟩
  all_goals
    rw [hwhere] at hu
    split at hu
  · rename_i hut
    subst hut
    exact hb (hu.resolve_left hp)
  · exact h.outside u hu
  · rename_i hut
    subst hut
    exact hstay u (hans lk hu hd)
  · exact hstay u (h.entering u lk hd hu)
  · rename_i hut
    subst hut
    exact hmany lk hu hd
  · exact h.several u lk hd hu
  · exact hlock lk hu
  · exact h.locking u lk hu
  · rename_i hut
    subst hut
    exact hrel lk hu
  · exact h.releasing u lk hu

omit [DecidableEq L] in
/-- A thread that is in no heap counts one more, which is not running yet. -/
theorem GateInv.clone (h : GateInv s) (ht : s.phase t = .running) (hin : s.inside t = [])
    (hu : s.phase u = .gone) : GateInv ({ s with count := s.count + 1 }.goto u .born) := by
  have hne : t ≠ u := by
    rintro rfl
    rw [ht] at hu
    cases hu
  -- nobody is alone before, since `t` is outside
  have hnotalone : ∀ v, s.Alone v → v = t := by
    intro v hv
    by_contra hvt
    have hgone := hv t (Ne.symm hvt)
    rw [ht] at hgone
    cases hgone
  have hphase : ∀ v, ({ s with count := s.count + 1 }.goto u .born).phase v =
      if v = u then .born else s.phase v := fun v => State.goto_phase _ u v .born
  refine ⟨?_, fun v hv => ?_, fun v hd hv => ?_, fun v lk hd hv => ?_, fun v lk hd hv => ?_,
    h.unowned, h.owned, h.owner, h.once, fun v lk hv => ?_, fun v lk hv => ?_⟩
  · obtain ⟨c, hmem, hcard⟩ := h.counted
    have huc : u ∉ c := fun hc => (hmem u).mp hc hu
    refine ⟨insert u c, fun v => ?_, ?_⟩
    · rw [hphase, Finset.mem_insert]
      split
      · rename_i hvu
        exact iff_of_true (Or.inl hvu) (by simp)
      · rename_i hvu
        rw [or_iff_right hvu, hmem]
    · rw [Finset.card_insert_of_notMem huc, hcard]
      rfl
  · rw [hphase] at hv
    split at hv
    · rename_i hvu
      subst hvu
      exact h.outside v (Or.inl hu)
    · exact h.outside v hv
  · have hvt := hnotalone v (h.entered v hd hv)
    subst hvt
    exact absurd hin hv
  all_goals
    rw [hphase] at hv
    split at hv
    · cases hv
  · have hvt := hnotalone v (h.entering v lk hd hv)
    subst hvt
    rw [ht] at hv
    cases hv
  · exact h.several v lk hd hv
  · exact h.locking v lk hv
  · exact h.releasing v lk hv

omit [DecidableEq L] in
/-- A thread that is in no heap is no longer counted. -/
theorem GateInv.uncount (h : GateInv s) (ht : s.phase t ≠ .gone) (hin : s.inside t = []) :
    GateInv ({ s with count := s.count - 1 }.goto t .gone) := by
  have hphase : ∀ v, ({ s with count := s.count - 1 }.goto t .gone).phase v =
      if v = t then .gone else s.phase v := fun v => State.goto_phase _ t v .gone
  have hstay : ∀ v, s.Alone v → ({ s with count := s.count - 1 }.goto t .gone).Alone v := by
    intro v hv x hx
    rw [hphase]
    split
    · rfl
    · exact hv x hx
  refine ⟨?_, fun v hv => ?_, fun v hd hv => hstay v (h.entered v hd hv), fun v lk hd hv => ?_,
    fun v lk hd hv => ?_, h.unowned, h.owned, h.owner, h.once, fun v lk hv => ?_, fun v lk hv => ?_⟩
  · obtain ⟨c, hmem, hcard⟩ := h.counted
    refine ⟨c.erase t, fun v => ?_, ?_⟩
    · rw [hphase, Finset.mem_erase, hmem]
      split
      · rename_i hvt
        exact iff_of_false (fun hv => hv.1 hvt) (by simp)
      · rename_i hvt
        exact and_iff_right hvt
    · rw [Finset.card_erase_of_mem ((hmem t).mpr ht), hcard]
      rfl
  all_goals
    rw [hphase] at hv
    split at hv
  · rename_i hvt
    subst hvt
    exact hin
  · exact h.outside v hv
  · cases hv
  · exact hstay v (h.entering v lk hd hv)
  · cases hv
  · exact h.several v lk hd hv
  · cases hv
  · exact h.locking v lk hv
  · cases hv
  · exact h.releasing v lk hv

omit [DecidableEq T] [DecidableEq L] in
/-- The latch goes up while nobody is in a heap, or is up already. -/
theorem GateInv.latch (h : GateInv s) (ht : s.phase t = .many lk) :
    GateInv { s with threaded := true } := by
  have hempty : s.threaded = false → ∀ v, s.inside v = [] := fun hd v =>
    h.empty hd (by rw [ht]; simp) (h.several t lk hd ht)
  refine ⟨h.counted, h.outside, fun v hd => ?_, fun v x hd => ?_, fun v x hd => ?_, fun hd => ?_,
    fun _ v x hv => ?_, h.owner, fun _ v => ?_, fun v x hv => rfl,
    fun v x hv => ⟨rfl, (h.releasing v x hv).2⟩⟩
  · cases hd
  · cases hd
  · cases hd
  · cases hd
  · cases hd : s.threaded with
    | false =>
      rw [show s.inside v = [] from hempty hd v] at hv
      cases hv
    | true => exact h.owned hd v x hv
  · cases hd : s.threaded with
    | false =>
      rw [show s.inside v = [] from hempty hd v]
      exact List.nodup_nil
    | true => exact h.once hd v

omit [DecidableEq L] in
/-- A thread that is alone goes into a heap without its mutex. -/
theorem GateInv.bypass (h : GateInv s) (hd : s.threaded = false) (ht : s.phase t = .answering lk) :
    GateInv (s.enter t lk) := by
  have halone := h.entering t lk hd ht
  have hin : ∀ v, (s.enter t lk).inside v = if v = t then lk :: s.inside t else s.inside v :=
    fun v => State.enter_inside s t v lk
  have hup : ¬ s.threaded = true := by simp [hd]
  refine ⟨h.counted, fun v hv => ?_, fun v _ hv => ?_, h.entering, fun v x _ hv => ?_, h.unowned,
    fun hu => absurd hu hup, fun v x hv => ?_, fun hu => absurd hu hup, h.locking,
    fun v x hv => absurd (h.releasing v x hv).1 hup⟩
  · have hvt : v ≠ t := by
      rintro rfl
      rw [State.enter_phase, ht] at hv
      simp at hv
    rw [hin, if_neg hvt]
    exact h.outside v hv
  · rw [hin] at hv
    split at hv
    · rename_i hvt
      subst hvt
      exact halone
    · exact h.entered v hd hv
  · have hvt : v ≠ t := by
      rintro rfl
      rw [State.enter_phase, ht] at hv
      cases hv
    rw [hin, if_neg hvt]
    exact h.several v x hd hv
  · rw [State.enter_mu, h.unowned hd] at hv
    cases hv

/-- A thread takes a free mutex and goes into the heap. -/
theorem GateInv.acquire (h : GateInv s) (ht : s.phase t = .locking lk) (hfree : s.mu lk = none) :
    GateInv ((s.own lk (some t)).enter t lk) := by
  have hd := h.locking t lk ht
  have hmu : ∀ x, ((s.own lk (some t)).enter t lk).mu x = if x = lk then some t else s.mu x :=
    fun x => State.own_mu s lk x (some t)
  have hin : ∀ v, ((s.own lk (some t)).enter t lk).inside v =
      if v = t then lk :: s.inside t else s.inside v := fun v => State.enter_inside _ t v lk
  have hdown : ¬ s.threaded = false := by simp [hd]
  -- nobody is in a heap whose mutex is free
  have hout : ∀ v, lk ∉ s.inside v := by
    intro v hv
    rw [h.owned hd v lk hv] at hfree
    cases hfree
  refine ⟨h.counted, fun v hv => ?_, fun v hf => absurd hf hdown, fun v x hf => absurd hf hdown,
    fun v x hf => absurd hf hdown, fun hf => absurd hf hdown, fun _ v x hv => ?_, fun v x hv => ?_,
    fun _ v => ?_, h.locking, fun v x hv => ⟨hd, ?_⟩⟩
  · have hvt : v ≠ t := by
      rintro rfl
      rw [State.enter_phase, State.own_phase, ht] at hv
      simp at hv
    rw [hin, if_neg hvt]
    exact h.outside v hv
  · rw [hin] at hv
    rw [hmu]
    split at hv
    · rename_i hvt
      subst hvt
      split
      · rfl
      · rename_i hx
        exact h.owned hd v x ((List.mem_cons.mp hv).resolve_left hx)
    · have hx : x ≠ lk := by
        rintro rfl
        exact hout v hv
      rw [if_neg hx]
      exact h.owned hd v x hv
  · rw [hmu] at hv
    rw [hin]
    split at hv
    · rename_i hx
      cases hv
      rw [if_pos rfl, hx]
      exact List.mem_cons_self
    · split
      · rename_i hvt
        subst hvt
        exact List.mem_cons_of_mem lk (h.owner v x hv)
      · exact h.owner v x hv
  · rw [hin]
    split
    · exact List.nodup_cons.mpr ⟨hout t, h.once hd t⟩
    · exact h.once hd v
  · rw [hin]
    split
    · rename_i hvt
      subst hvt
      exact List.mem_cons_of_mem lk (h.releasing v x hv).2
    · exact (h.releasing v x hv).2

/-- A thread that is alone leaves a heap. -/
theorem GateInv.skip (h : GateInv s) (hd : s.threaded = false) : GateInv (s.leave t lk) := by
  have hin : ∀ v, (s.leave t lk).inside v = if v = t then (s.inside t).erase lk else s.inside v :=
    fun v => State.leave_inside s t v lk
  have hup : ¬ s.threaded = true := by simp [hd]
  have hsub : ∀ v x, x ∈ (s.leave t lk).inside v → x ∈ s.inside v := by
    intro v x hx
    rw [hin] at hx
    split at hx
    · rename_i hvt
      subst hvt
      exact List.mem_of_mem_erase hx
    · exact hx
  have hempty : ∀ v, s.inside v = [] → (s.leave t lk).inside v = [] := fun v hv =>
    List.eq_nil_iff_forall_not_mem.mpr fun x hx => by
      have hmem := hsub v x hx
      rw [hv] at hmem
      cases hmem
  refine ⟨h.counted, fun v hv => hempty v (h.outside v hv),
    fun v _ hv => h.entered v hd fun he => hv (hempty v he), h.entering,
    fun v x _ hv => hempty v (h.several v x hd hv), h.unowned, fun hu => absurd hu hup,
    fun v x hv => ?_, fun hu => absurd hu hup, h.locking,
    fun v x hv => absurd (h.releasing v x hv).1 hup⟩
  rw [State.leave_mu, h.unowned hd] at hv
  cases hv

/-- The owner of a mutex gives it back and leaves the heap; it goes on running. -/
theorem GateInv.release (h : GateInv s) (ht : s.phase t = .releasing lk) :
    GateInv (((s.own lk none).leave t lk).goto t .running) := by
  obtain ⟨hd, hmem⟩ := h.releasing t lk ht
  have howner := h.owned hd t lk hmem
  have hmu : ∀ x, (((s.own lk none).leave t lk).goto t .running).mu x =
      if x = lk then none else s.mu x := fun x => State.own_mu s lk x none
  have hin : ∀ v, (((s.own lk none).leave t lk).goto t .running).inside v =
      if v = t then (s.inside t).erase lk else s.inside v := fun v => State.leave_inside _ t v lk
  have hphase : ∀ v, (((s.own lk none).leave t lk).goto t .running).phase v =
      if v = t then .running else s.phase v := fun v => State.goto_phase _ t v .running
  have hdown : ¬ s.threaded = false := by simp [hd]
  refine ⟨?_, fun v hv => ?_, fun v hf => absurd hf hdown, fun v x hf => absurd hf hdown,
    fun v x hf => absurd hf hdown, fun hf => absurd hf hdown, fun _ v x hv => ?_, fun v x hv => ?_,
    fun _ v => ?_, fun _ _ _ => hd, fun v x hv => ⟨hd, ?_⟩⟩
  · obtain ⟨c, hc, hcard⟩ := h.counted
    refine ⟨c, fun v => ?_, hcard⟩
    rw [hc, hphase]
    split
    · rename_i hvt
      subst hvt
      rw [ht]
      simp
    · rfl
  · rw [hphase] at hv
    split at hv
    · simp at hv
    · rename_i hvt
      rw [hin, if_neg hvt]
      exact h.outside v hv
  · rw [hin] at hv
    rw [hmu]
    split at hv
    · rename_i hvt
      subst hvt
      obtain ⟨hx, hxin⟩ := (h.once hd v).mem_erase_iff.mp hv
      rw [if_neg hx]
      exact h.owned hd v x hxin
    · rename_i hvt
      have hx : x ≠ lk := by
        rintro rfl
        rw [h.owned hd v x hv] at howner
        exact hvt (Option.some.inj howner)
      rw [if_neg hx]
      exact h.owned hd v x hv
  · rw [hmu] at hv
    split at hv
    · cases hv
    · rename_i hx
      rw [hin]
      split
      · rename_i hvt
        subst hvt
        exact (List.mem_erase_of_ne hx).mpr (h.owner v x hv)
      · exact h.owner v x hv
  · rw [hin]
    split
    · exact (h.once hd t).erase lk
    · exact h.once hd v
  · rw [hphase] at hv
    split at hv
    · cases hv
    · rename_i hvt
      rw [hin, if_neg hvt]
      exact (h.releasing v x hv).2

end Steps

/-! ## What has been told of the locks -/

/-- Who unlocks a mutex went into the heap with it, who unlocks none went in without one, and
no mutex of another thread was unlocked. -/
def Matched : List (Obs T L) → Prop
  | [] => True
  | .released t lk :: older => Since (· = .bypassed t lk) (· = .acquired t lk) older ∧ Matched older
  | .skipped t lk :: older => Since (· = .acquired t lk) (· = .bypassed t lk) older ∧ Matched older
  | .misused _ _ :: _ => False
  | .acquired _ _ :: older | .bypassed _ _ :: older => Matched older

/-- How each thread that is in a heap went in. -/
structure Told (s : State T L) (log : List (Obs T L)) : Prop where
  latched : s.threaded = true → ∀ t lk, lk ∈ s.inside t →
    Since (· = .bypassed t lk) (· = .acquired t lk) log
  unlatched : s.threaded = false → ∀ t lk, lk ∈ s.inside t →
    Since (· = .acquired t lk) (· = .bypassed t lk) log
  matched : Matched log

section History

variable {s : State T L} {log : List (Obs T L)} {t : T} {lk : L}

theorem Told.acquire (h : Told s log) (hd : s.threaded = true) :
    Told ((s.own lk (some t)).enter t lk) (.acquired t lk :: log) := by
  refine ⟨fun _ v x hx => ?_, fun hf => ?_, h.matched⟩
  · have hold : x ∈ s.inside v →
        Since (· = .bypassed v x) (· = .acquired v x) (.acquired t lk :: log) := fun hx =>
      (h.latched hd v x hx).append [.acquired t lk] (by simp)
    rw [State.enter_inside] at hx
    split at hx
    · rename_i hvt
      subst hvt
      rcases List.mem_cons.mp hx with rfl | hx
      · exact Or.inl rfl
      · exact hold hx
    · exact hold hx
  · rw [State.enter_threaded, State.own_threaded, hd] at hf
    cases hf

omit [DecidableEq L] in
theorem Told.bypass (h : Told s log) (hd : s.threaded = false) :
    Told (s.enter t lk) (.bypassed t lk :: log) := by
  refine ⟨fun hu => ?_, fun _ v x hx => ?_, h.matched⟩
  · rw [State.enter_threaded, hd] at hu
    cases hu
  · have hold : x ∈ s.inside v →
        Since (· = .acquired v x) (· = .bypassed v x) (.bypassed t lk :: log) := fun hx =>
      (h.unlatched hd v x hx).append [.bypassed t lk] (by simp)
    rw [State.enter_inside] at hx
    split at hx
    · rename_i hvt
      subst hvt
      rcases List.mem_cons.mp hx with rfl | hx
      · exact Or.inl rfl
      · exact hold hx
    · exact hold hx

/-- Whoever is in a heap after a thread left was in it before. -/
theorem State.mem_leave {v : T} {x : L} (hx : x ∈ (s.leave t lk).inside v) : x ∈ s.inside v := by
  rw [State.leave_inside] at hx
  split at hx
  · rename_i hvt
    subst hvt
    exact List.mem_of_mem_erase hx
  · exact hx

theorem Told.release (h : Told s log) (hd : s.threaded = true) (hin : lk ∈ s.inside t) :
    Told ((s.own lk none).leave t lk) (.released t lk :: log) := by
  refine ⟨fun _ v x hx => ?_, fun hf => ?_, h.latched hd t lk hin, h.matched⟩
  · have hx' := State.mem_leave hx
    exact (h.latched hd v x hx').append [.released t lk] (by simp)
  · rw [State.leave_threaded, State.own_threaded, hd] at hf
    cases hf

theorem Told.skip (h : Told s log) (hd : s.threaded = false) (hin : lk ∈ s.inside t) :
    Told (s.leave t lk) (.skipped t lk :: log) := by
  refine ⟨fun hu => ?_, fun _ v x hx => ?_, h.unlatched hd t lk hin, h.matched⟩
  · rw [State.leave_threaded, hd] at hu
    cases hu
  · exact (h.unlatched hd v x (State.mem_leave hx)).append [.skipped t lk] (by simp)

omit [DecidableEq T] [DecidableEq L] in
theorem Told.latch (h : Told s log) (hinv : GateInv s) (ht : s.phase t = .many lk) :
    Told { s with threaded := true } log := by
  refine ⟨fun _ v x hx => ?_, fun hf => ?_, h.matched⟩
  · cases hd : s.threaded with
    | false =>
      have hempty : s.inside v = [] := hinv.empty hd (by rw [ht]; simp) (hinv.several t lk hd ht)
      rw [show s.inside v = [] from hempty] at hx
      cases hx
    | true => exact h.latched hd v x hx
  · cases hf

end History

/-! ## Over every order of steps -/

theorem gate_step {s s' : State T L} {a : Label T L} {log out : List (Obs T L)}
    (h : GateInv s ∧ Told s log) (hs : step s a = some (s', out)) :
    GateInv s' ∧ Told s' (out ++ log) := by
  obtain ⟨hinv, htold⟩ := h
  -- a step that says nothing and leaves the heaps and the latch
  have hquiet : ∀ t p, Told (s.goto t p) log := fun t p =>
    ⟨htold.latched, htold.unlatched, htold.matched⟩
  cases a with
  | clone t u =>
    simp only [step] at hs
    split at hs
    · rename_i hg
      cases hs
      exact ⟨hinv.clone hg.1 hg.2.1 hg.2.2, htold.latched, htold.unlatched, htold.matched⟩
    · cases hs
  | cloneFailed u =>
    simp only [step] at hs
    split at hs
    · rename_i hg
      cases hs
      exact ⟨hinv.uncount (by rw [hg]; simp) (hinv.outside u (Or.inr hg)),
        htold.latched, htold.unlatched, htold.matched⟩
    · cases hs
  | start u =>
    simp only [step] at hs
    split at hs
    · rename_i hg
      cases hs
      refine ⟨hinv.goto (by rw [hg]; simp) ?_ ?_ ?_ ?_ ?_ ?_, hquiet u _⟩ <;> simp
    · cases hs
  | exit t =>
    simp only [step] at hs
    split at hs
    · rename_i hg
      cases hs
      exact ⟨hinv.uncount (by rw [hg.1]; simp) hg.2, htold.latched, htold.unlatched, htold.matched⟩
    · cases hs
  | lock t lk =>
    simp only [step] at hs
    split at hs
    · rename_i hg
      cases hs
      refine ⟨?_, hquiet t _⟩
      cases hd : s.threaded with
      | false => refine hinv.goto (by rw [hg]; simp) ?_ ?_ ?_ ?_ ?_ ?_ <;> simp
      | true => refine hinv.goto (by rw [hg]; simp) ?_ ?_ ?_ ?_ ?_ ?_ <;> simp [hd]
    · cases hs
  | loadCount t =>
    cases hp : s.phase t with
    | asked lk =>
      simp only [step, hp] at hs
      cases hs
      refine ⟨?_, hquiet t _⟩
      by_cases hc : 1 < s.count
      · rw [if_pos hc]
        -- more than one is counted, so a thread in a heap is not alone
        refine hinv.goto (by rw [hp]; simp) ?_ ?_ ?_ (fun lk _ hd => ?_) ?_ ?_ <;> try simp
        by_contra hne
        have hone := hinv.entered t hd hne
        obtain ⟨c, hmem, hcard⟩ := hinv.counted
        have hle : c.card ≤ 1 := Finset.card_le_one.mpr fun a ha b hb => by
          have hin : ∀ v ∈ c, v = t := fun v hv => by
            by_contra hvt
            exact (hmem v).mp hv (hone v hvt)
          rw [hin a ha, hin b hb]
        omega
      · rw [if_neg hc]
        refine hinv.goto (by rw [hp]; simp) ?_ ?_ (fun _ _ _ => ?_) ?_ ?_ ?_ <;> try simp
        exact hinv.alone (by rw [hp]; simp) (Nat.not_lt.mp hc)
    | _ => simp only [step, hp] at hs; cases hs
  | setThreaded t =>
    cases hp : s.phase t with
    | many lk =>
      simp only [step, hp] at hs
      cases hs
      have hup := hinv.latch hp
      have htell := htold.latch hinv hp
      refine ⟨hup.goto (t := t) ?_ ?_ ?_ ?_ ?_ ?_ ?_,
        htell.latched, htell.unlatched, htell.matched⟩ <;> simp [hp]
    | _ => simp only [step, hp] at hs; cases hs
  | answer t =>
    cases hp : s.phase t with
    | answering lk =>
      simp only [step, hp] at hs
      split at hs
      · rename_i hd
        cases hs
        refine ⟨hinv.goto (by rw [hp]; simp) ?_ ?_ ?_ ?_ ?_ ?_, hquiet t _⟩ <;> simp [hd]
      · rename_i hd
        have hf : s.threaded = false := by simpa using hd
        cases hs
        have htell : Told (s.enter t lk) (.bypassed t lk :: log) := htold.bypass hf
        refine ⟨(hinv.bypass hf hp).goto ?_ ?_ ?_ ?_ ?_ ?_ ?_,
          htell.latched, htell.unlatched, htell.matched⟩ <;> simp [hp]
    | _ => simp only [step, hp] at hs; cases hs
  | acquire t =>
    cases hp : s.phase t with
    | locking lk =>
      simp only [step, hp] at hs
      split at hs
      · rename_i hfree
        cases hs
        have htell : Told ((s.own lk (some t)).enter t lk) (.acquired t lk :: log) :=
          htold.acquire (hinv.locking t lk hp)
        refine ⟨(hinv.acquire hp hfree).goto ?_ ?_ ?_ ?_ ?_ ?_ ?_,
          htell.latched, htell.unlatched, htell.matched⟩ <;> simp [hp]
      · cases hs
    | _ => simp only [step, hp] at hs; cases hs
  | unlock t lk =>
    simp only [step] at hs
    split at hs
    · rename_i hg
      split at hs
      · rename_i hd
        cases hs
        refine ⟨hinv.goto (by rw [hg.1]; simp) ?_ ?_ ?_ ?_ ?_ ?_, hquiet t _⟩ <;> simp [hd, hg.2]
      · rename_i hd
        have hf : s.threaded = false := by simpa using hd
        cases hs
        exact ⟨hinv.skip hf, htold.skip hf hg.2⟩
    · cases hs
  | release t =>
    cases hp : s.phase t with
    | releasing lk =>
      obtain ⟨hd, hin⟩ := hinv.releasing t lk hp
      simp only [step, hp, hinv.owned hd t lk hin, if_true] at hs
      cases hs
      have htell := htold.release hd hin
      exact ⟨hinv.release hp, htell.latched, htell.unlatched, htell.matched⟩
    | _ => simp only [step, hp] at hs; cases hs

theorem gate_init (main : T) :
    GateInv (gate (L := L) main).init ∧ Told (gate (L := L) main).init [] := by
  refine ⟨⟨⟨{main}, fun t => ?_, rfl⟩, fun _ _ => rfl, fun _ _ h => absurd rfl h,
    fun t lk _ h => ?_, fun _ _ _ _ => rfl, fun _ _ => rfl, ?_, ?_, ?_, fun t lk h => ?_,
    fun t lk h => ?_⟩, ?_, ?_, trivial⟩
  all_goals simp_all [gate]
  all_goals split at h <;> cases h

theorem gate_run {main : T} {s : State T L} {log : List (Obs T L)}
    (h : (gate main).Run anyStep s log) : GateInv s ∧ Told s log :=
  h.invariant (P := fun s log => GateInv s ∧ Told s log) (gate_init main)
    fun _ _ _ _ _ hinv _ hs => gate_step hinv hs

/-- **No two threads are in one heap**, whatever the order of the steps, and a heap's mutex is
owned exactly while its owner is in the heap and the latch is up. -/
theorem heap_locks_exclude (main : T) {s : State T L} {log : List (Obs T L)}
    (run : (gate main).Run anyStep s log) :
    (∀ t u lk, lk ∈ s.inside t → lk ∈ s.inside u → t = u) ∧
      ∀ t lk, s.mu lk = some t ↔ s.threaded = true ∧ lk ∈ s.inside t := by
  obtain ⟨hinv, -⟩ := gate_run run
  refine ⟨fun t u lk ht hu => ?_, fun t lk => ⟨fun hmu => ⟨?_, hinv.owner t lk hmu⟩,
    fun hin => hinv.owned hin.1 t lk hin.2⟩⟩
  · cases hd : s.threaded with
    | true =>
      have hmt := hinv.owned hd t lk ht
      have hmu := hinv.owned hd u lk hu
      exact Option.some.inj (hmt.symm.trans hmu)
    | false =>
      -- `t` is alone, and a thread that is gone is in no heap
      by_contra htu
      have hgone := hinv.entered t hd (List.ne_nil_of_mem ht) u (Ne.symm htu)
      rw [hinv.outside u (Or.inl hgone)] at hu
      cases hu
  · by_contra hd
    rw [hinv.unowned (by simpa using hd) lk] at hmu
    cases hmu

/-- Thread 0 is in a heap alone, leaves it and makes thread 1; both then ask for the heap, and
thread 1 is first. -/
def contended : List (Label Nat Nat) :=
  [.lock 0 5, .loadCount 0, .answer 0, .unlock 0 5, .clone 0 1, .start 1, .lock 0 5, .lock 1 5,
    .loadCount 1, .setThreaded 1, .answer 1, .acquire 1, .loadCount 0, .setThreaded 0, .answer 0]

/-- Thread 0 waits for the mutex while thread 1 is in the heap. -/
theorem heap_locks_exclude_contended :
    ∃ s log, (gate (L := Nat) 0).Run anyStep s log ∧ s.inside 1 = [5] ∧ s.phase 0 = .locking 5 ∧
      (∀ t u lk, lk ∈ s.inside t → lk ∈ s.inside u → t = u) ∧
      ∀ t lk, s.mu lk = some t ↔ s.threaded = true ∧ lk ∈ s.inside t := by
  have hstart : (gate (L := Nat) 0).Run anyStep _ [] := .start
  obtain ⟨s, log, hrun, hp⟩ := hstart.extend (fun _ _ => true) (fun _ _ _ => trivial) contended
    (fun s _ => decide (s.inside 1 = [5] ∧ s.phase 0 = .locking 5)) (by decide)
  obtain ⟨hin, hphase⟩ := of_decide_eq_true hp
  exact ⟨s, log, hrun, hin, hphase, heap_locks_exclude 0 hrun⟩

/-- **A lock and its unlock see the same answer**: `nsync_mu_unlock` is called for exactly the
locks that called `nsync_mu_lock`, and never on a mutex of another thread. -/
theorem unlock_matches_lock (main : T) {s : State T L} {log : List (Obs T L)}
    (run : (gate main).Run anyStep s log) : Matched log :=
  (gate_run run).2.matched

/-- Thread 0 leaves without the mutex, thread 1 with it. -/
theorem unlock_matches_lock_contended :
    ∃ s log, (gate (L := Nat) 0).Run anyStep s log ∧ .skipped 0 5 ∈ log ∧ .released 1 5 ∈ log ∧
      Matched log := by
  have hstart : (gate (L := Nat) 0).Run anyStep _ [] := .start
  obtain ⟨s, log, hrun, hp⟩ := hstart.extend (fun _ _ => true) (fun _ _ _ => trivial)
    (contended ++ [.unlock 1 5, .release 1])
    (fun _ log => decide (.skipped 0 5 ∈ log ∧ .released 1 5 ∈ log)) (by decide)
  obtain ⟨hskip, hrel⟩ := of_decide_eq_true hp
  exact ⟨s, log, hrun, hskip, hrel, unlock_matches_lock 0 hrun⟩

end ApeShim.Malloc
