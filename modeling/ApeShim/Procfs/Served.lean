import ApeShim.Procfs.Content
import Mathlib.Data.List.Pairwise

/-!
Whole runs of accesses to the slots: what a read returns was generated within the
throttle window, and a process keeps being served, as long as no start time reads zero
where the slot takes zero for "absent". Each access brings its own clock and snapshot.
-/

namespace ApeShim.Procfs

/-! ## Runs -/

inductive Op
  /-- `pc_pid_content` -/
  | read (name : Text)
  /-- `pid_refresh`, of a listing or a relative access -/
  | ensure
  /-- `slot_of`, of a stamp -/
  | stamp

/-- What it leaves in the slots. -/
def Op.apply (op : Op) (h : Host) (slots : Slots) (t : Int) (pid : UInt32) : Slots :=
  match op with
  | .read name => (h.pcPidContent slots t pid name).1
  | .ensure => (h.pidRefresh slots pid t).1
  | .stamp => (slotOf slots pid).2

/-- One access: when, by which snapshot, of which process. -/
structure Access where
  t : Int
  h : Host
  /-- which of the processes that have had a pid it names now; no code reads it -/
  inc : UInt32 → Nat
  pid : UInt32
  op : Op

def Access.apply (a : Access) (slots : Slots) : Slots := a.op.apply a.h slots a.t a.pid

/-- The slots behind a run, its latest access first. -/
def slotsAfter : List Access → Slots
  | [] => fun _ => {}
  | a :: past => a.apply (slotsAfter past)

/-- The clock does not go back, and neither do the processes of a pid. -/
def Ordered (run : List Access) : Prop :=
  run.Pairwise fun b a => a.t ≤ b.t ∧ ∀ pid, a.inc pid ≤ b.inc pid

/-- The process is the same one, alive, at every access. -/
def AliveThroughout (pid : UInt32) (run : List Access) (now : Access) : Prop :=
  ∀ a ∈ now :: run, a.h.alive pid = true ∧ a.inc pid = now.inc pid

/-- The start times of a pid do for the slots, `a` before `b`. -/
structure Identified (pid : UInt32) (b a : Access) : Prop where
  /-- a live process whose start reads zero is not asked for again in the window -/
  window : b.t - a.t < pidDirMs → a.h.alive pid = true → a.h.startJiffies pid ≠ 0
  /-- a later process shows a start of its own, and not zero -/
  start : a.h.alive pid = true → b.h.alive pid = true → a.inc pid ≠ b.inc pid →
    b.h.startJiffies pid ≠ a.h.startJiffies pid ∧ b.h.startJiffies pid ≠ 0

def IdentifiedRun (pid : UInt32) (run : List Access) : Prop :=
  run.Pairwise fun b a => b.pid = pid → a.pid = pid → Identified pid b a

/-- The files that are kept for an incarnation. -/
def keptFiles : List Text := pidStable.take 3

/-- What reads of a process return behind a run. -/
structure Served (pid : UInt32) (run : List Access) (now : Access) : Prop where
  /-- alive throughout, it has its volatile files, generated from it within the window -/
  vol : AliveThroughout pid run now → ∀ name ∈ pidVolatile, ∃ text,
    (now.h.pcPidContent (slotsAfter run) now.t pid name).2 = some text ∧
    ∃ g ∈ now :: run, g.inc pid = now.inc pid ∧ g.t ≤ now.t ∧ now.t - g.t < pidDirMs ∧
      text = g.h.pidText pid name
  /-- the kept files were generated from a process that was there within the window -/
  kept : ∀ name ∈ keptFiles, ∀ text,
    (now.h.pcPidContent (slotsAfter run) now.t pid name).2 = some text →
    ∃ g ∈ now :: run, g.h.genPidFile pid name = some text ∧
      ∃ a ∈ now :: run, now.t - a.t < pidDirMs ∧ a.h.alive pid = true ∧ a.inc pid = g.inc pid

/-! ## What the slots hold -/

/-- The kept text of a slot was generated by one of these accesses. -/
def Kept (pid : UInt32) (run : List Access) (s : PidSlot) (ok : Access → Prop) : Prop :=
  ∀ si < 3, s.fixed si ≠ [] → ∃ g ∈ run, g.h.genPidFile pid (pidStable.getD si []) = some (s.fixed si) ∧
    g.pid = pid ∧ g.h.alive pid = true ∧ ok g

/-- Generated by the access `m`, of a live process. -/
structure Generated (pid : UInt32) (run : List Access) (s : PidSlot) (m : Access) : Prop where
  pid_eq : m.pid = pid
  alive : m.h.alive pid = true
  ms : s.ms = m.t
  start : s.start = m.h.startJiffies pid
  vol : s.vol = pidVolatile.map (m.h.pidText pid)
  /-- a kept text is of this process, or of one that came later in the window -/
  kept : Kept pid run s fun g => m.inc pid ≤ g.inc pid ∧ (g.inc pid = m.inc pid ∨ m.t ≤ g.t)

/-- Found absent by the access `m`. -/
structure FoundAbsent (pid : UInt32) (run : List Access) (s : PidSlot) (m : Access) : Prop where
  pid_eq : m.pid = pid
  absent : m.h.alive pid = false
  ms : s.ms = m.t
  start : s.start = 0
  kept : Kept pid run s fun _ => True

def SlotOk (pid : UInt32) (run : List Access) (s : PidSlot) : Prop :=
  s = { pid } ∨ ∃ m ∈ run, Generated pid run s m ∨ FoundAbsent pid run s m

def Inv (pid : UInt32) (run : List Access) (slots : Slots) : Prop :=
  ∀ i, (slots i).pid = pid → SlotOk pid run (slots i)

section Slots

variable {pid : UInt32} {run : List Access} {s : PidSlot} {m a : Access} {slots : Slots}

theorem Kept.mono {ok ok' : Access → Prop} (hk : Kept pid run s ok)
    (himp : ∀ g ∈ run, g.pid = pid → g.h.alive pid = true → ok g → ok' g) : Kept pid (a :: run) s ok' := by
  intro si hsi hne
  obtain ⟨g, hg, htext, hpid, halive, hok⟩ := hk si hsi hne
  exact ⟨g, List.mem_cons_of_mem _ hg, htext, hpid, halive, himp g hg hpid halive hok⟩

theorem Generated.later (hg : Generated pid run s m) : Generated pid (a :: run) s m :=
  { hg with kept := hg.kept.mono fun _ _ _ _ hok => hok }

theorem FoundAbsent.later (hf : FoundAbsent pid run s m) : FoundAbsent pid (a :: run) s m :=
  { hf with kept := hf.kept.mono fun _ _ _ _ hok => hok }

theorem SlotOk.later (hs : SlotOk pid run s) : SlotOk pid (a :: run) s := by
  rcases hs with hblank | ⟨m, hm, hg | hf⟩
  · exact Or.inl hblank
  · exact Or.inr ⟨m, List.mem_cons_of_mem _ hm, Or.inl hg.later⟩
  · exact Or.inr ⟨m, List.mem_cons_of_mem _ hm, Or.inr hf.later⟩

theorem Inv.later (hi : Inv pid run slots) : Inv pid (a :: run) slots := fun i hp => (hi i hp).later

/-- The slot found for a process is its own; the others it leaves alone. -/
theorem slotOf_spec (slots : Slots) (pid : UInt32) :
    ((slotOf slots pid).2 (slotOf slots pid).1).pid = pid ∧
    ∀ i, (slotOf slots pid).2 i = slots i ∨ (slotOf slots pid).2 i = { pid } := by
  unfold slotOf
  split
  · rename_i s hs
    have hp := List.find?_some hs
    exact ⟨by simpa using hp, fun i => Or.inl rfl⟩
  · refine ⟨by simp, fun i => ?_⟩
    by_cases hi : i = oldest slots pid
    · exact Or.inr (by simp [hi])
    · exact Or.inl (Function.update_of_ne hi _ _)

theorem Inv.find (hi : Inv pid run slots) (q : UInt32) : Inv pid run (slotOf slots q).2 := by
  intro i hp
  rcases (slotOf_spec slots q).2 i with h | h
  · rw [h] at hp ⊢
    exact hi i hp
  · rw [h] at hp ⊢
    obtain rfl : q = pid := hp
    exact Or.inl rfl

/-- A slot put in place keeps the rest. -/
theorem Inv.update (hi : Inv pid run slots) {i : Fin 2048} (hs : s.pid = pid → SlotOk pid run s) :
    Inv pid run (Function.update slots i s) := by
  intro j hp
  by_cases hj : j = i
  · subst hj
    rw [Function.update_self] at hp ⊢
    exact hs hp
  · rw [Function.update_of_ne hj] at hp ⊢
    exact hi j hp

/-- What a refresh regenerates is of the process that is there. -/
theorem Generated.refreshed {now : Access} (hp : now.pid = pid) (ha : now.h.alive pid = true)
    (hs : SlotOk pid run s) (hlast : ∀ g ∈ run, g.inc pid ≤ now.inc pid)
    (hid : ∀ g ∈ run, g.pid = pid → Identified pid now g) :
    Generated pid (now :: run) { s with
      vol := pidVolatile.map (now.h.pidText pid), ms := now.t, start := now.h.startJiffies pid,
      fixed := if now.h.startJiffies pid ≠ s.start then fun _ => [] else s.fixed } now := by
  refine ⟨hp, ha, rfl, rfl, rfl, ?_⟩
  by_cases hstart : now.h.startJiffies pid ≠ s.start
  · rw [if_pos hstart]
    exact fun si _ hne => absurd rfl hne
  rw [if_neg hstart]
  rw [not_not] at hstart
  rcases hs with rfl | ⟨m, hm, hg | hf⟩
  · exact fun si _ hne => absurd rfl hne
  · -- the same start is the same process, and so is what came in between
    have hsame : m.inc pid = now.inc pid := by
      by_contra hne
      exact ((hid m hm hg.pid_eq).start hg.alive ha hne).1 (hstart.trans hg.start)
    refine hg.kept.mono fun g hmem hgp hga hok => ?_
    have := hlast g hmem
    have : g.inc pid = now.inc pid := by have := hok.1; omega
    exact ⟨this.ge, Or.inl this⟩
  · -- nothing that was there before the absence starts at zero
    refine hf.kept.mono fun g hmem hgp hga _ => ?_
    have hsame : g.inc pid = now.inc pid := by
      by_contra hne
      exact ((hid g hmem hgp).start hga ha hne).2 (hstart.trans hf.start)
    exact ⟨hsame.ge, Or.inl hsame⟩

theorem FoundAbsent.refreshed {now : Access} (hp : now.pid = pid) (ha : now.h.alive pid = false)
    (hs : SlotOk pid run s) :
    FoundAbsent pid (now :: run) { s with vol := [], ms := now.t, start := 0 } now := by
  refine ⟨hp, ha, rfl, rfl, ?_⟩
  rcases hs with rfl | ⟨m, hm, hg | hf⟩
  · exact fun si _ hne => absurd rfl hne
  · exact hg.kept.mono fun _ _ _ _ _ => trivial
  · exact hf.kept.mono fun _ _ _ _ _ => trivial

/-- A slot that answers within the window was generated by an access of the window. -/
theorem SlotOk.fresh {t : Int} (hs : SlotOk pid run s) (hf : s.fresh t = true) :
    ∃ m ∈ run, t - m.t < pidDirMs ∧ (Generated pid run s m ∨ FoundAbsent pid run s m) := by
  rw [PidSlot.fresh, Bool.and_eq_true, decide_eq_true_eq, decide_eq_true_eq] at hf
  rcases hs with rfl | ⟨m, hm, hg⟩
  · exact absurd rfl hf.1
  · have hms : s.ms = m.t := by
      rcases hg with hg | hg
      · exact hg.ms
      · exact hg.ms
    exact ⟨m, hm, by rw [← hms]; exact hf.2, hg⟩

/-- **A refresh** keeps the invariant, and answers with a generation of the window. -/
theorem refresh_spec {now : Access} (hp : now.pid = pid) (hi : Inv pid run slots)
    (hlast : ∀ g ∈ run, g.inc pid ≤ now.inc pid) (hid : ∀ g ∈ run, g.pid = pid → Identified pid now g) :
    Inv pid (now :: run) (now.h.pidRefresh slots pid now.t).1 ∧
    ∀ i, (now.h.pidRefresh slots pid now.t).2 = some i → 
      ((now.h.pidRefresh slots pid now.t).1 i).pid = pid ∧
      ∃ m ∈ now :: run, now.t - m.t < pidDirMs ∧
        Generated pid (now :: run) ((now.h.pidRefresh slots pid now.t).1 i) m := by
  have hwin : (0 : Int) < pidDirMs := by decide
  have hslot := (slotOf_spec slots pid).1
  have hi' := hi.find pid
  unfold Host.pidRefresh
  generalize slotOf slots pid = r at hslot hi'
  obtain ⟨i, slots'⟩ := r
  have hs := hi' i hslot
  dsimp only
  cases hf : (slots' i).fresh now.t with
  | true =>
    rw [if_pos rfl]
    refine ⟨hi'.later, fun j hj => ?_⟩
    dsimp only at hj ⊢
    split at hj
    · rename_i hne
      obtain rfl := Option.some.inj hj
      obtain ⟨m, hm, hlt, hg | habs⟩ := hs.fresh hf
      · exact ⟨hslot, m, List.mem_cons_of_mem _ hm, hlt, hg.later⟩
      · exact absurd habs.start hne
    · cases hj
  | false =>
    rw [if_neg (by decide)]
    cases ha : now.h.alive pid with
    | true =>
      rw [if_pos rfl]
      have hg := Generated.refreshed hp ha hs hlast hid
      refine ⟨hi'.later.update fun _ => Or.inr ⟨now, List.mem_cons_self, Or.inl hg⟩, fun j hj => ?_⟩
      obtain rfl := Option.some.inj hj
      dsimp only
      rw [Function.update_self]
      exact ⟨hslot, now, List.mem_cons_self, by omega, hg⟩
    | false =>
      rw [if_neg (by decide)]
      have hf := FoundAbsent.refreshed hp ha hs
      refine ⟨hi'.later.update fun _ => Or.inr ⟨now, List.mem_cons_self, Or.inr hf⟩, fun j hj => ?_⟩
      cases hj

/-- A refresh of another process. -/
theorem Inv.refresh_other (hi : Inv pid run slots) (h : Host) {q : UInt32} (hq : q ≠ pid) (t : Int) :
    Inv pid run (h.pidRefresh slots q t).1 ∧
    ∀ i, (h.pidRefresh slots q t).2 = some i → ((h.pidRefresh slots q t).1 i).pid = q := by
  have hslot := (slotOf_spec slots q).1
  have hi' := hi.find q
  unfold Host.pidRefresh
  generalize slotOf slots q = r at hslot hi'
  obtain ⟨i, slots'⟩ := r
  dsimp only at hslot hi' ⊢
  split
  · refine ⟨hi', fun j hj => ?_⟩
    dsimp only at hj ⊢
    split at hj
    · obtain rfl := Option.some.inj hj
      exact hslot
    · cases hj
  · split
    · refine ⟨hi'.update fun hp => absurd (hslot.symm.trans hp) hq, fun j hj => ?_⟩
      obtain rfl := Option.some.inj hj
      dsimp only
      rw [Function.update_self]
      exact hslot
    · refine ⟨hi'.update fun hp => absurd (hslot.symm.trans hp) hq, fun j hj => ?_⟩
      cases hj

theorem alive_of_gen {h : Host} {name text : Text} (hg : h.genPidFile pid name = some text) :
    h.alive pid = true := by
  by_contra ha
  rw [Bool.not_eq_true] at ha
  rw [Host.genPidFile, if_pos ha] at hg
  cases hg

/-- A kept file generated within the window of the slot. -/
theorem Generated.keep {now : Access} {si : Nat} {text : Text} (hg : Generated pid (now :: run) s m)
    (hp : now.pid = pid) (hm : m.t ≤ now.t ∧ m.inc pid ≤ now.inc pid)
    (htext : now.h.genPidFile pid (pidStable.getD si []) = some text) :
    Generated pid (now :: run) { s with fixed := Function.update s.fixed si text } m := by
  refine { hg with kept := fun sj hsj hne => ?_ }
  by_cases hj : sj = si
  · subst hj
    dsimp only
    rw [Function.update_self]
    exact ⟨now, List.mem_cons_self, htext, hp, alive_of_gen htext, hm.2, Or.inr hm.1⟩
  · dsimp only at hne ⊢
    rw [Function.update_of_ne hj] at hne ⊢
    exact hg.kept sj hsj hne

/-- What is kept in a slot of the window is the process's own, or of one of the window. -/
theorem Generated.kept_own {now : Access} {si : Nat} (hg : Generated pid (now :: run) s m)
    (hm : m ∈ now :: run) (hwin : now.t - m.t < pidDirMs) (hsi : si < 3) (hne : s.fixed si ≠ []) :
    ∃ g ∈ now :: run, g.h.genPidFile pid (pidStable.getD si []) = some (s.fixed si) ∧
      ∃ a ∈ now :: run, now.t - a.t < pidDirMs ∧ a.h.alive pid = true ∧ a.inc pid = g.inc pid := by
  obtain ⟨g, hmem, htext, -, hga, -, hsame | hlater⟩ := hg.kept si hsi hne
  · exact ⟨g, hmem, htext, m, hm, hwin, hg.alive, hsame.symm⟩
  · exact ⟨g, hmem, htext, g, hmem, by omega, hga, rfl⟩

theorem getElem_idxOf {names : List Text} {name : Text} {i : Nat} (hi : names.idxOf? name = some i) :
    names[i]? = some name := by
  obtain ⟨hlt, hget, -⟩ := List.idxOf?_eq_some_iff.mp hi
  exact List.getElem?_eq_some_iff.mpr ⟨hlt, hget⟩

theorem volatile_text {name : Text} {vi : Nat} (h : Host) (hvi : pidVolatile.idxOf? name = some vi) :
    (pidVolatile.map (h.pidText pid)).getD vi [] = h.pidText pid name := by
  rw [List.getD_eq_getElem?_getD, List.getElem?_map, getElem_idxOf hvi]
  rfl

/-- **A read** keeps the invariant, and returns what was generated in the window. -/
theorem read_spec {now : Access} (hp : now.pid = pid) (hi : Inv pid run slots)
    (hlast : ∀ g ∈ run, g.t ≤ now.t ∧ g.inc pid ≤ now.inc pid)
    (hid : ∀ g ∈ run, g.pid = pid → Identified pid now g) (name : Text) :
    Inv pid (now :: run) (now.h.pcPidContent slots now.t pid name).1 ∧
    (∀ text, (now.h.pcPidContent slots now.t pid name).2 = some text →
      (name ∈ pidVolatile → ∃ g ∈ now :: run, now.t - g.t < pidDirMs ∧ text = g.h.pidText pid name) ∧
      (name ∈ keptFiles → ∃ g ∈ now :: run, g.h.genPidFile pid name = some text ∧
        ∃ a ∈ now :: run, now.t - a.t < pidDirMs ∧ a.h.alive pid = true ∧ a.inc pid = g.inc pid)) := by
  have hwin : (0 : Int) < pidDirMs := by decide
  have hown : ∀ text, now.h.genPidFile pid name = some text → ∃ g ∈ now :: run,
      g.h.genPidFile pid name = some text ∧
      ∃ a ∈ now :: run, now.t - a.t < pidDirMs ∧ a.h.alive pid = true ∧ a.inc pid = g.inc pid :=
    fun text hg => ⟨now, List.mem_cons_self, hg, now, List.mem_cons_self, by omega, alive_of_gen hg, rfl⟩
  have hapart : ∀ n ∈ keptFiles, n ∉ pidVolatile := by decide
  have hfirst : ∀ m ∈ now :: run, m.t ≤ now.t ∧ m.inc pid ≤ now.inc pid := by
    intro m hm
    rcases List.mem_cons.mp hm with rfl | hm
    · exact ⟨Int.le_refl _, Nat.le_refl _⟩
    · exact hlast m hm
  obtain ⟨hinv, hslot⟩ := refresh_spec hp hi (fun g hg => (hlast g hg).2) hid
  unfold Host.pcPidContent
  cases hvi : pidVolatile.idxOf? name with
  | some vi =>
    dsimp only
    have hvol : name ∈ pidVolatile := by
      by_contra hn
      rw [List.idxOf?_eq_none_iff.mpr hn] at hvi
      cases hvi
    generalize now.h.pidRefresh slots pid now.t = r at hinv hslot
    obtain ⟨slots', _ | i⟩ := r
    · exact ⟨hinv, fun text ht => by cases ht⟩
    · refine ⟨hinv, fun text ht => ⟨fun _ => ?_, fun hk => absurd hvol (hapart name hk)⟩⟩
      obtain ⟨-, m, hm, hlt, hg⟩ := hslot i rfl
      obtain rfl := Option.some.inj ht
      dsimp only at hg
      exact ⟨m, hm, hlt, by rw [hg.vol, volatile_text m.h hvi]⟩
  | none =>
    dsimp only
    have hvol : name ∉ pidVolatile := List.idxOf?_eq_none_iff.mp hvi
    cases hsi : pidStable.idxOf? name with
    | none => exact ⟨hi.later, fun text ht => by cases ht⟩
    | some si =>
      dsimp only
      have hname : pidStable.getD si [] = name := by
        rw [List.getD_eq_getElem?_getD, getElem_idxOf hsi]
        rfl
      split
      · rename_i hlow
        have hsi3 : si < 3 := by omega
        generalize now.h.pidRefresh slots pid now.t = r at hinv hslot
        obtain ⟨slots', _ | i⟩ := r
        · exact ⟨hinv, fun text ht => by cases ht⟩
        · obtain ⟨-, m, hm, hlt, hg⟩ := hslot i rfl
          dsimp only at hg hinv ⊢
          split
          · cases hgen : now.h.genPidFile pid name with
            | none => exact ⟨hinv, fun text ht => by cases ht⟩
            | some text =>
              rw [← hname] at hgen
              have hkeep := hg.keep hp (hfirst m hm) hgen
              refine ⟨hinv.update fun _ => Or.inr ⟨m, hm, Or.inl hkeep⟩, fun text' ht => ?_⟩
              obtain rfl := Option.some.inj ht
              rw [hname] at hgen
              exact ⟨fun hv => absurd hv hvol, fun _ => hown _ hgen⟩
          · rename_i hne
            refine ⟨hinv, fun text ht => ⟨fun hv => absurd hv hvol, fun _ => ?_⟩⟩
            obtain rfl := Option.some.inj ht
            rw [← hname]
            exact hg.kept_own hm hlt hsi3 hne
      · refine ⟨hi.later, fun text ht => ⟨fun hv => absurd hv hvol, fun _ => ?_⟩⟩
        dsimp only at ht
        split at ht
        · exact hown _ ht
        · cases ht

theorem Inv.read_other (hi : Inv pid run slots) (h : Host) {q : UInt32} (hq : q ≠ pid) (t : Int)
    (name : Text) : Inv pid run (h.pcPidContent slots t q name).1 := by
  obtain ⟨hinv, hslot⟩ := hi.refresh_other h hq t
  unfold Host.pcPidContent
  generalize h.pidRefresh slots q t = r at hinv hslot
  obtain ⟨slots', _ | i⟩ := r
  · split
    · exact hinv
    · split
      · exact hi
      · split
        · exact hinv
        · exact hi
  · have hpid : (slots' i).pid ≠ pid := fun hp => hq ((hslot i rfl).symm.trans hp)
    split
    · exact hinv
    · split
      · exact hi
      · split
        · dsimp only
          split
          · split
            · exact hinv
            · exact hinv.update fun hp => absurd hp hpid
          · exact hinv
        · exact hi

/-- Every access keeps the invariant. -/
theorem apply_inv {now : Access} (hi : Inv pid run slots)
    (hlast : ∀ g ∈ run, g.t ≤ now.t ∧ ∀ pid, g.inc pid ≤ now.inc pid)
    (hid : ∀ g ∈ run, now.pid = pid → g.pid = pid → Identified pid now g) :
    Inv pid (now :: run) (now.apply slots) := by
  by_cases hp : now.pid = pid
  · unfold Access.apply Op.apply
    rw [hp]
    cases now.op with
    | read name =>
      exact (read_spec hp hi (fun g hg => ⟨(hlast g hg).1, (hlast g hg).2 pid⟩)
        (fun g hg => hid g hg hp) name).1
    | ensure =>
      exact (refresh_spec hp hi (fun g hg => (hlast g hg).2 pid) (fun g hg => hid g hg hp)).1
    | stamp => exact (hi.find pid).later
  · unfold Access.apply Op.apply
    cases now.op with
    | read name => exact (hi.read_other now.h hp now.t name).later
    | ensure => exact (hi.refresh_other now.h hp now.t).1.later
    | stamp => exact (hi.find now.pid).later

theorem run_inv (ho : Ordered run) (hid : IdentifiedRun pid run) : Inv pid run (slotsAfter run) := by
  induction run with
  | nil =>
    intro i hp
    obtain rfl : (0 : UInt32) = pid := hp
    exact Or.inl rfl
  | cons a run ih =>
    obtain ⟨hlast, ho⟩ := List.pairwise_cons.mp ho
    obtain ⟨hnow, hid⟩ := List.pairwise_cons.mp hid
    exact apply_inv (ih ho hid) hlast hnow

/-- The slot of a live process does not say that it is absent. -/
theorem not_stuck {now : Access} (hi : Inv pid run slots)
    (hid : ∀ g ∈ run, g.pid = pid → Identified pid now g) (ha : AliveThroughout pid run now) :
    stuck slots now.t pid = false := by
  rw [Bool.eq_false_iff]
  intro hs
  unfold stuck at hs
  have hslot := (slotOf_spec slots pid).1
  have hi' := hi.find pid
  generalize slotOf slots pid = r at hs hslot hi'
  obtain ⟨i, slots'⟩ := r
  dsimp only at hs hslot
  rw [Bool.and_eq_true, decide_eq_true_eq] at hs
  obtain ⟨m, hm, hlt, hg | hf⟩ := (hi' i hslot).fresh hs.1
  · exact (hid m hm hg.pid_eq).window hlt hg.alive (hg.start.symm.trans hs.2)
  · have := (ha m (List.mem_cons_of_mem _ hm)).1
    rw [hf.absent] at this
    cases this

theorem served {now : Access} (hp : now.pid = pid) (ho : Ordered (now :: run))
    (hid : IdentifiedRun pid (now :: run)) : Served pid run now := by
  obtain ⟨hlast, ho⟩ := List.pairwise_cons.mp ho
  obtain ⟨hnow, hid⟩ := List.pairwise_cons.mp hid
  have hi := run_inv ho hid
  have hread := fun name => (read_spec hp hi (fun g hg => ⟨(hlast g hg).1, (hlast g hg).2 pid⟩)
    (fun g hg => hnow g hg hp) name).2
  refine ⟨fun ha name hn => ?_, fun name hn text ht => (hread name text ht).2 hn⟩
  have hsome := @pcPidContent_isSome now.h (slotsAfter run) now.t pid name
    (ha now List.mem_cons_self).1 (List.mem_append_left _ hn)
  rw [not_stuck hi (fun g hg => hnow g hg hp) ha, Bool.and_false] at hsome
  obtain ⟨text, ht⟩ := Option.isSome_iff_exists.mp hsome
  obtain ⟨g, hg, hlt, htext⟩ := (hread name text ht).1 hn
  refine ⟨text, ht, g, hg, (ha g hg).2, ?_, hlt, htext⟩
  rcases List.mem_cons.mp hg with rfl | hg
  · exact Int.le_refl _
  · exact (hlast g hg).1

/-! ## Why both conditions are there -/

theorem oldest_mem (slots : Slots) (pid : UInt32) : oldest slots pid ∈ (List.range 8).map (probe pid) := by
  have hfold : ∀ (l : List (Fin 2048)) (o : Fin 2048),
      l.foldl (fun o s => if (slots s).ms < (slots o).ms then s else o) o ∈ o :: l := by
    intro l
    induction l with
    | nil => simp
    | cons s l ih =>
      intro o
      rw [List.foldl_cons]
      split
      · exact List.mem_cons_of_mem _ (ih s)
      · rcases List.mem_cons.mp (ih o) with h | h
        · rw [h]
          exact List.mem_cons_self
        · exact List.mem_cons_of_mem _ (List.mem_cons_of_mem _ h)
  exact hfold _ _

/-- Where the probes find a process. -/
def found (slots : Slots) (pid : UInt32) : Option (Fin 2048) :=
  ((List.range 8).map (probe pid)).find? fun s => (slots s).pid = pid

theorem slotOf_found {i : Fin 2048} (hf : found slots pid = some i) : slotOf slots pid = (i, slots) := by
  unfold found at hf
  rw [slotOf, hf]

theorem slotOf_missing (hf : found slots pid = none) :
    slotOf slots pid = (oldest slots pid, Function.update slots (oldest slots pid) { pid }) := by
  unfold found at hf
  rw [slotOf, hf]

/-- A slot that is handed out once is found again. -/
theorem found_again {slots' : Slots} (hs : ∀ i, (slots' i).pid = ((slotOf slots pid).2 i).pid) :
    found slots' pid = some (slotOf slots pid).1 := by
  cases hf : found slots pid with
  | some i =>
    rw [slotOf_found hf] at hs ⊢
    simp only [found, hs]
    exact hf
  | none =>
    rw [slotOf_missing hf] at hs ⊢
    rw [found, List.find?_eq_none] at hf
    have hown : ∀ s ∈ (List.range 8).map (probe pid), (slots' s).pid = pid ↔ s = oldest slots pid := by
      intro s hmem
      rw [hs]
      dsimp only
      by_cases hso : s = oldest slots pid
      · simp [hso]
      · rw [Function.update_of_ne hso]
        simpa [hso] using hf s hmem
    cases hf' : found slots' pid with
    | none =>
      rw [found, List.find?_eq_none] at hf'
      exact absurd ((hown _ (oldest_mem slots pid)).mpr rfl) (by simpa using hf' _ (oldest_mem slots pid))
    | some s =>
      have hpid := List.find?_some hf'
      rw [decide_eq_true_eq] at hpid
      rw [(hown s (List.mem_of_find?_eq_some hf')).mp hpid]

theorem slotOf_again {slots' : Slots} (hs : ∀ i, (slots' i).pid = ((slotOf slots pid).2 i).pid) :
    slotOf slots' pid = ((slotOf slots pid).1, slots') :=
  slotOf_found (found_again hs)

/-- The slot put in place is the one found from then on. -/
theorem slotOf_update (hs : s.pid = pid) :
    slotOf (Function.update (slotOf slots pid).2 (slotOf slots pid).1 s) pid =
      ((slotOf slots pid).1, Function.update (slotOf slots pid).2 (slotOf slots pid).1 s) := by
  apply slotOf_again
  intro i
  by_cases hi : i = (slotOf slots pid).1
  · rw [hi, Function.update_self, hs, (slotOf_spec slots pid).1]
  · rw [Function.update_of_ne hi]

/-- What the refresh of a live process leaves, where the slot was not in its window. -/
theorem pidRefresh_stale {h : Host} {t : Int} {i : Fin 2048} {slots' : Slots} (ha : h.alive pid = true)
    (hs : slotOf slots pid = (i, slots')) (hf : (slots' i).fresh t = false) :
    ∃ slots'', slotOf slots'' pid = (i, slots'') ∧ (slots'' i).ms = t ∧
      (slots'' i).start = h.startJiffies pid ∧
      (slots'' i).fixed = (if h.startJiffies pid ≠ (slots' i).start then fun _ => [] else (slots' i).fixed) ∧
      h.pidRefresh slots pid t = (slots'', some i) := by
  obtain ⟨s, hs'⟩ : ∃ s : PidSlot, s = { slots' i with
    vol := pidVolatile.map (h.pidText pid), ms := t, start := h.startJiffies pid,
    fixed := if h.startJiffies pid ≠ (slots' i).start then fun _ => [] else (slots' i).fixed } := ⟨_, rfl⟩
  have hslot := (slotOf_spec slots pid).1
  have hnf : ¬ (slots' i).fresh t = true := by simp [hf]
  have hagain : slotOf (Function.update slots' i s) pid = (i, Function.update slots' i s) := by
    have := @slotOf_update pid s slots
    rw [hs] at this hslot
    exact this (by rw [hs']; exact hslot)
  refine ⟨Function.update slots' i s, hagain, ?_, ?_, ?_, ?_⟩
  · rw [Function.update_self, hs']
  · rw [Function.update_self, hs']
  · rw [Function.update_self, hs']
  · unfold Host.pidRefresh
    rw [hs, hs']
    dsimp only
    rw [if_neg hnf, if_pos ha]

theorem volatile_read {h : Host} {t : Int} {vi : Nat} {name : Text} (hvi : pidVolatile.idxOf? name = some vi)
    {slots' : Slots} {i : Fin 2048} (hr : h.pidRefresh slots pid t = (slots', some i)) :
    h.pcPidContent slots t pid name = (slots', some ((slots' i).vol.getD vi [])) := by
  unfold Host.pcPidContent
  rw [hvi, hr]

theorem volatile_unread {h : Host} {t : Int} {vi : Nat} {name : Text} (hvi : pidVolatile.idxOf? name = some vi)
    {slots' : Slots} (hr : h.pidRefresh slots pid t = (slots', none)) :
    h.pcPidContent slots t pid name = (slots', none) := by
  unfold Host.pcPidContent
  rw [hvi, hr]

/-- In the window of a slot that says "absent". -/
theorem pidRefresh_absent {h : Host} {t : Int} {i : Fin 2048} (hi : slotOf slots pid = (i, slots))
    (hf : (slots i).fresh t = true) (hz : (slots i).start = 0) : h.pidRefresh slots pid t = (slots, none) := by
  unfold Host.pidRefresh
  rw [hi]
  dsimp only
  rw [if_pos hf, if_neg (by simp [hz])]

/-- A live process whose start reads zero is served once, and then not in the window. -/
theorem zero_start_unserved {h h' : Host} {t t' : Int} {name : Text} (ha : h.alive pid = true)
    (hz : h.startJiffies pid = 0) (hf : ((slotOf slots pid).2 (slotOf slots pid).1).fresh t = false)
    (ht : t ≠ 0) (hlt : t' - t < pidDirMs) (hn : name ∈ pidVolatile) :
    (h.pcPidContent slots t pid name).2.isSome = true ∧
    (h'.pcPidContent (h.pcPidContent slots t pid name).1 t' pid name).2 = none := by
  obtain ⟨i, slots₁, hs⟩ : ∃ i slots₁, slotOf slots pid = (i, slots₁) := ⟨_, _, rfl⟩
  rw [hs] at hf
  obtain ⟨slots', hagain, hms, hstart, -, hr⟩ := pidRefresh_stale ha hs hf
  obtain ⟨vi, hvi⟩ := idxOf_volatile hn
  have hfresh : (slots' i).fresh t' = true := by
    rw [PidSlot.fresh, hms, Bool.and_eq_true, decide_eq_true_eq, decide_eq_true_eq]
    exact ⟨ht, hlt⟩
  rw [volatile_read hvi hr]
  refine ⟨rfl, ?_⟩
  rw [volatile_unread hvi (pidRefresh_absent hagain hfresh (hstart.trans hz))]

/-- A read of a file that is kept, behind its refresh. -/
theorem kept_read {h : Host} {t : Int} {name : Text} {si : Nat} (hsi : pidStable.idxOf? name = some si)
    (hvi : pidVolatile.idxOf? name = none) (hlow : si < 2) {slots' : Slots} {i : Fin 2048}
    (hr : h.pidRefresh slots pid t = (slots', some i)) :
    h.pcPidContent slots t pid name =
      if (slots' i).fixed si = [] then
        match h.genPidFile pid name with
        | none => (slots', none)
        | some text => (Function.update slots' i
            { slots' i with fixed := Function.update (slots' i).fixed si text }, some text)
      else (slots', some ((slots' i).fixed si)) := by
  unfold Host.pcPidContent
  rw [hvi]
  dsimp only
  rw [hsi]
  dsimp only
  rw [if_pos (Or.inl hlow)]
  generalize h.pidRefresh slots pid t = r at hr
  subst hr
  rfl

/-- What was kept for a process is kept for the next one, if it shows the same start. -/
theorem same_start_carried {h h' : Host} {t t' : Int} {name text : Text}
    (hgen : h.genPidFile pid name = some text) (hne : text ≠ []) (ha' : h'.alive pid = true)
    (hstart : h'.startJiffies pid = h.startJiffies pid) (hlt : t + pidDirMs ≤ t')
    (hn : name ∈ pidStable.take 2) :
    (h'.pcPidContent (h.pcPidContent (slotsAfter []) t pid name).1 t' pid name).2 = some text := by
  have hindex : ∀ n ∈ pidStable.take 2, n ∉ pidVolatile ∧
      (pidStable.idxOf? n = some 0 ∨ pidStable.idxOf? n = some 1) := by decide
  obtain ⟨hvol, hsi⟩ := hindex name hn
  obtain ⟨si, hlow, hsi⟩ : ∃ si < 2, pidStable.idxOf? name = some si := by
    rcases hsi with hsi | hsi
    · exact ⟨0, by decide, hsi⟩
    · exact ⟨1, by decide, hsi⟩
  have hvi : pidVolatile.idxOf? name = none := List.idxOf?_eq_none_iff.mpr hvol
  have hblank : ∀ i, (slotOf (slotsAfter []) pid).2 i = {} ∨ (slotOf (slotsAfter []) pid).2 i = { pid } :=
    (slotOf_spec (slotsAfter []) pid).2
  generalize slotsAfter [] = slots at hblank
  obtain ⟨i, slots₁, hs⟩ : ∃ i slots₁, slotOf slots pid = (i, slots₁) := ⟨_, _, rfl⟩
  rw [hs] at hblank
  dsimp only at hblank
  have hnew : (slots₁ i).fresh t = false ∧ (slots₁ i).fixed = fun _ => [] := by
    rcases hblank i with h | h
    · rw [h]
      exact ⟨rfl, rfl⟩
    · rw [h]
      exact ⟨rfl, rfl⟩
  -- the first read keeps its text
  obtain ⟨slots₂, hagain, hms, hst, hfixed, hr⟩ := pidRefresh_stale (alive_of_gen hgen) hs hnew.1
  have hempty : (slots₂ i).fixed si = [] := by
    rw [hfixed, hnew.2]
    split <;> rfl
  rw [kept_read hsi hvi hlow hr, if_pos hempty, hgen]
  dsimp only
  obtain ⟨s, hs'⟩ : ∃ s : PidSlot, s = { slots₂ i with
    fixed := Function.update (slots₂ i).fixed si text } := ⟨_, rfl⟩
  rw [← hs']
  have hfind : slotOf (Function.update slots₂ i s) pid = (i, Function.update slots₂ i s) := by
    have hslot := (slotOf_spec slots₂ pid).1
    have := @slotOf_update pid s slots₂
    rw [hagain] at this hslot
    exact this (by rw [hs']; exact hslot)
  have hself : Function.update slots₂ i s i = s := Function.update_self ..
  -- and the second finds it behind the same start
  have hstale : (Function.update slots₂ i s i).fresh t' = false := by
    have hold : ¬ t' - t < pidDirMs := by omega
    rw [hself, PidSlot.fresh, hs', hms, decide_eq_false hold, Bool.and_false]
  obtain ⟨slots₄, -, -, -, hkept, hr'⟩ := pidRefresh_stale ha' hfind hstale
  have htext : (slots₄ i).fixed si = text := by
    have hsame : ¬ h'.startJiffies pid ≠ s.start := by
      rw [not_not, hs', hstart]
      exact hst.symm
    rw [hkept, hself, if_neg hsame, hs']
    exact Function.update_self ..
  rw [kept_read hsi hvi hlow hr', if_neg (by rw [htext]; exact hne), htext]

/-- No slot is in its window at first. -/
theorem first_stale (pid : UInt32) (t : Int) :
    ((slotOf (slotsAfter []) pid).2 (slotOf (slotsAfter []) pid).1).fresh t = false := by
  rcases (slotOf_spec (slotsAfter []) pid).2 (slotOf (slotsAfter []) pid).1 with hb | hb
  · rw [hb]
    rfl
  · rw [hb]
    rfl

/-- **A live process is served**, and with its own files, in every run whose start times do
for the slots; either condition broken by two accesses breaks it. -/
theorem pid_content_served (pid : UInt32) :
    (∀ run now, now.pid = pid → Ordered (now :: run) → IdentifiedRun pid (now :: run) →
      Served pid run now) ∧
    (∀ (h h' : Host) (t t' : Int) (name : Text), h.alive pid = true → h.startJiffies pid = 0 → t ≠ 0 →
      t' - t < pidDirMs → name ∈ pidVolatile →
      (h.pcPidContent (slotsAfter []) t pid name).2.isSome = true ∧
      (h'.pcPidContent (h.pcPidContent (slotsAfter []) t pid name).1 t' pid name).2 = none) ∧
    (∀ (h h' : Host) (t t' : Int) (name text : Text), h.genPidFile pid name = some text → text ≠ [] →
      h'.alive pid = true → h'.startJiffies pid = h.startJiffies pid → t + pidDirMs ≤ t' →
      name ∈ pidStable.take 2 →
      (h'.pcPidContent (h.pcPidContent (slotsAfter []) t pid name).1 t' pid name).2 = some text) := by
  refine ⟨fun run now hp ho hid => served hp ho hid, ?_, ?_⟩
  · intro h h' t t' name ha hz ht hlt hn
    refine zero_start_unserved ha hz ?_ ht hlt hn
    exact first_stale pid t
  · intro h h' t t' name text hgen hne ha' hstart hlt hn
    exact same_start_carried hgen hne ha' hstart hlt hn

/-- Read twice in a window, with a start time to tell it by. -/
theorem pid_content_served_twice :
    Served 7 [⟨5000, plainHost, fun _ => 1, 7, .read "stat".toList⟩]
      ⟨5100, plainHost, fun _ => 1, 7, .read "stat".toList⟩ := by
  refine (pid_content_served 7).1 _ _ rfl ?_ ?_
  · simp [Ordered]
  · have hid : Identified 7 ⟨5100, plainHost, fun _ => 1, 7, .read "stat".toList⟩
        ⟨5000, plainHost, fun _ => 1, 7, .read "stat".toList⟩ :=
      ⟨fun _ _ => by decide, fun _ _ hne => absurd rfl hne⟩
    simp only [IdentifiedRun, List.pairwise_cons, List.mem_singleton, forall_eq, List.not_mem_nil,
      false_imp_iff, implies_true, List.Pairwise.nil, and_true]
    exact fun _ _ => hid

/-- The same host, where no start time can be read. -/
def startlessHost : Host := { plainHost with startJiffies := fun _ => 0 }

/-- Read twice in a window, with a start time of zero: the process is gone. -/
theorem pid_content_vanishes :
    ¬ Served 7 [⟨5000, startlessHost, fun _ => 1, 7, .read "stat".toList⟩]
      ⟨5100, startlessHost, fun _ => 1, 7, .read "stat".toList⟩ := by
  intro hs
  have hthere : AliveThroughout 7 [⟨5000, startlessHost, fun _ => 1, 7, .read "stat".toList⟩]
      ⟨5100, startlessHost, fun _ => 1, 7, .read "stat".toList⟩ := by
    intro a ha
    rcases List.mem_cons.mp ha with rfl | ha
    · exact ⟨rfl, rfl⟩
    · rw [List.mem_singleton.mp ha]
      exact ⟨rfl, rfl⟩
  obtain ⟨text, ht, -⟩ := hs.vol hthere "stat".toList (by decide)
  have hf : ((slotOf (slotsAfter []) 7).2 (slotOf (slotsAfter []) 7).1).fresh 5000 = false :=
    first_stale 7 5000
  have hgone : (startlessHost.pcPidContent (startlessHost.pcPidContent (slotsAfter []) 5000 7
      "stat".toList).1 5100 7 "stat".toList).2 = none :=
    (zero_start_unserved rfl rfl hf (by decide) (by decide) (by decide)).2
  exact absurd (ht.symm.trans hgone) (by simp)

end Slots

end ApeShim.Procfs
