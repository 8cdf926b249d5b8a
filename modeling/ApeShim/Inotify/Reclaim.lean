import ApeShim.Inotify.Identity

/-!
When a slot comes back. `scan_thread` gives a slot back when it finds the instance
dead, an instance dies of a write that fails, and a write fails only once the
read end is closed: the log keeps the three in that order.
-/

namespace ApeShim.Inotify
open Flags Trace

def Obs.pipe : Obs → Nat
  | .made _ p => p
  | .watch p _ => p
  | .closed p => p
  | .failed p => p
  | .ended p => p

/-- Newest first: the close, then a failed write, then the end of the scan thread. -/
def Reclaimed (log : List Obs) (p : Nat) : Prop := [.ended p, .failed p, .closed p].Sublist log

def Found (log : List Obs) (p : Nat) : Prop := [Obs.failed p, .closed p].Sublist log

structure Accounted (s : State) (log : List Obs) : Prop where
  known : ∀ {o}, o ∈ log → o.pipe < s.pipes
  slot_or_ended : ∀ {p}, p < s.pipes → (∃ i g, s.slots i = some g ∧ g.pipe = p) ∨ .ended p ∈ log
  used : ∀ {i g}, s.slots i = some g → .ended g.pipe ∉ log
  closed_iff : ∀ {p}, p < s.pipes → (.closed p ∈ log ↔ ∀ fd, s.files fd ≠ some (.reader p))
  dead : ∀ {i g}, s.slots i = some g → g.dead = true → Found log g.pipe
  ended : ∀ {p}, .ended p ∈ log → Reclaimed log p

namespace Accounted

theorem start : Accounted State.init [] where
  known h := by cases h
  slot_or_ended h := by simp [State.init] at h
  used h := by simp [State.init] at h
  closed_iff h := by simp [State.init] at h
  dead h := by simp [State.init] at h
  ended h := by cases h

variable {s : State} {log : List Obs}

/-- New observations that close or end nothing, over unchanged files. -/
theorem put (acc : Accounted s log) {i : Fin maxInstances} {g g' : Inst} {out : List Obs}
    (w : Wired s) (hg : s.slots i = some g) (hp : g'.pipe = g.pipe)
    (hout : ∀ o ∈ out, (∃ wd, o = .watch g.pipe wd) ∨ o = .failed g.pipe)
    (hdead : g'.dead = true → Found (out ++ log) g.pipe) :
    Accounted (s.put i g') (out ++ log) := by
  have hmem : ∀ {o}, o ∈ out ++ log → (∀ wd, o ≠ .watch g.pipe wd) → o ≠ .failed g.pipe → o ∈ log := by
    intro o ho h₁ h₂
    rcases List.mem_append.mp ho with ho | ho
    · rcases hout o ho with ⟨wd, rfl⟩ | rfl
      · exact absurd rfl (h₁ wd)
      · exact absurd rfl h₂
    · exact ho
  constructor
  · intro o ho
    rcases List.mem_append.mp ho with ho | ho
    · rcases hout o ho with ⟨wd, rfl⟩ | rfl
      · exact w.pipe_lt hg
      · exact w.pipe_lt hg
    · exact acc.known ho
  · intro p hlt
    rcases acc.slot_or_ended hlt with ⟨j, h, hj, hjp⟩ | he
    · left
      by_cases hji : j = i
      · subst hji
        rw [hg] at hj
        cases hj
        exact ⟨j, g', by simp [State.put], hp.trans hjp⟩
      · exact ⟨j, h, by simp [State.put, hji, hj], hjp⟩
    · exact Or.inr (List.mem_append_right _ he)
  · intro j h hj he
    have he := hmem he (by simp) (by simp)
    rcases Wired.slots_update hj with ⟨rfl, hh⟩ | ⟨-, hj₀⟩
    · cases hh
      rw [hp] at he
      exact acc.used hg he
    · exact acc.used hj₀ he
  · intro p hlt
    rw [show (s.put i g').files = s.files from rfl, ← acc.closed_iff hlt]
    exact ⟨fun h => hmem h (by simp) (by simp), fun h => List.mem_append_right _ h⟩
  · intro j h hj hd
    rcases Wired.slots_update hj with ⟨rfl, hh⟩ | ⟨-, hj₀⟩
    · cases hh
      rw [hp]
      exact hdead hd
    · exact (acc.dead hj₀ hd).trans (List.sublist_append_right _ _)
  · intro p he
    exact (acc.ended (hmem he (by simp) (by simp))).trans (List.sublist_append_right _ _)

/-- What a slot says of its reader is what the log says. -/
theorem readerOpen_eq_false (acc : Accounted s log) (w : Wired s) {i : Fin maxInstances} {g : Inst}
    (hg : s.slots i = some g) : s.readerOpen g = false ↔ .closed g.pipe ∈ log := by
  rw [acc.closed_iff (w.pipe_lt hg), Bool.eq_false_iff, Ne, Wired.readerOpen_iff]
  constructor
  · intro h fd hf
    obtain ⟨j, k, hj, hp, rfl⟩ := w.reader_slot hf
    have := w.pipe_inj hj hg hp
    subst this
    rw [hg] at hj
    cases hj
    exact h hf
  · intro h
    exact h g.rfd

theorem evolved (acc : Accounted s log) (w : Wired s) {i : Fin maxInstances} {g g' : Inst}
    {room : Nat → Room} {out : List Obs} (hg : s.slots i = some g)
    (hev : g.Evolves (s.writes g room) g') (hout : ∀ o ∈ out, ∃ wd, o = .watch g.pipe wd) :
    Accounted (s.put i g') ((out ++ failedObs g g') ++ log) := by
  refine acc.put w hg hev.pipe ?_ ?_
  · intro o ho
    rcases List.mem_append.mp ho with ho | ho
    · exact Or.inl (hout o ho)
    · unfold failedObs at ho
      split at ho
      · exact Or.inr (List.mem_singleton.mp ho)
      · cases ho
  · intro hd
    rw [List.append_assoc]
    refine List.Sublist.trans ?_ (List.sublist_append_right _ _)
    cases hgd : g.dead with
    | true => exact (acc.dead hg hgd).trans (List.sublist_append_right _ _)
    | false =>
      -- the write that killed it found the read end closed
      have hk := hev.reason hd
      simp only [hgd, Bool.false_eq_true, false_or] at hk
      obtain ⟨k, hk⟩ := hk
      have hclosed : s.readerOpen g = false := by
        cases ho : s.readerOpen g with
        | false => rfl
        | true => simp [State.writes, ho] at hk
      have hmem := (acc.readerOpen_eq_false w hg).mp hclosed
      simp only [failedObs, hgd, hd, Bool.not_false, Bool.and_self, if_true]
      exact List.Sublist.cons_cons _ (List.singleton_sublist.mpr hmem)

theorem install (acc : Accounted s log) {i : Fin maxInstances} {p0 p1 : Int}
    (hslot : s.slots i = none) (hne : p0 ≠ p1) (h0 : s.files p0 = none) (h1 : s.files p1 = none) :
    Accounted (s.install i p0 p1) ([.made p0 s.pipes] ++ log) := by
  have fresh : ∀ {o : Obs}, o ∈ log → o.pipe ≠ s.pipes := fun ho => (acc.known ho).ne
  constructor
  · intro o ho
    rcases List.mem_cons.mp ho with rfl | ho
    · exact Nat.lt_succ_self _
    · exact Nat.lt_succ_of_lt (acc.known ho)
  · intro p hlt
    rcases Nat.lt_succ_iff_lt_or_eq.mp hlt with hlt | rfl
    · rcases acc.slot_or_ended hlt with ⟨j, h, hj, hjp⟩ | he
      · have hji : j ≠ i := by rintro rfl; simp [hslot] at hj
        exact Or.inl ⟨j, h, by simp [State.install, hji, hj], hjp⟩
      · exact Or.inr (List.mem_append_right _ he)
    · exact Or.inl ⟨i, _, Function.update_self _ _ _, rfl⟩
  · intro j h hj he
    have he : Obs.ended h.pipe ∈ log := by simpa using he
    rcases Wired.slots_update hj with ⟨-, hh⟩ | ⟨-, hj₀⟩
    · cases hh
      exact fresh he rfl
    · exact acc.used hj₀ he
  · intro p hlt
    have hfd : ∀ fd, (s.install i p0 p1).files fd = some (.reader p) ↔
        (fd = p0 ∧ p = s.pipes) ∨ s.files fd = some (.reader p) := by
      intro fd
      simp only [State.install, Function.update_apply]
      split
      · rename_i h
        subst h
        simp [h1, hne.symm]
      · split
        · rename_i h
          subst h
          simp [h0, eq_comm]
        · rename_i h
          simp [h]
    simp only [List.cons_append, List.nil_append, List.mem_cons, reduceCtorEq, false_or, ne_eq, hfd,
      not_or]
    rcases Nat.lt_succ_iff_lt_or_eq.mp hlt with hlt | rfl
    · rw [acc.closed_iff hlt]
      constructor
      · intro h fd
        exact ⟨fun hc => by omega, h fd⟩
      · intro h fd
        exact (h fd).2
    · constructor
      · intro h
        exact absurd rfl (fresh h)
      · intro h
        exact absurd ⟨rfl, rfl⟩ (h p0).1
  · intro j h hj hd
    rcases Wired.slots_update hj with ⟨-, hh⟩ | ⟨-, hj₀⟩
    · cases hh
      cases hd
    · exact (acc.dead hj₀ hd).trans (List.sublist_append_right _ _)
  · intro p he
    exact (acc.ended (by simpa using he)).trans (List.sublist_append_right _ _)

theorem teardown (acc : Accounted s log) (w : Wired s) {i : Fin maxInstances} {g : Inst}
    (hg : s.slots i = some g) (hd : g.dead = true) :
    Accounted (s.teardown i g) ([.ended g.pipe] ++ log) := by
  constructor
  · intro o ho
    rcases List.mem_cons.mp ho with rfl | ho
    · exact w.pipe_lt hg
    · exact acc.known ho
  · intro p hlt
    rcases acc.slot_or_ended hlt with ⟨j, h, hj, hjp⟩ | he
    · by_cases hji : j = i
      · subst hji
        rw [hg] at hj
        cases hj
        exact Or.inr (by simp [hjp])
      · exact Or.inl ⟨j, h, by simp [State.teardown, hji, hj], hjp⟩
    · exact Or.inr (List.mem_append_right _ he)
  · intro j h hj he
    rcases Wired.slots_update hj with ⟨-, hh⟩ | ⟨hji, hj₀⟩
    · cases hh
    · rcases List.mem_cons.mp he with he | he
      · exact hji (w.pipe_inj hj₀ hg (by simpa using he))
      · exact acc.used hj₀ he
  · intro p hlt
    have hfd : ∀ fd, (s.teardown i g).files fd = some (.reader p) ↔
        s.files fd = some (.reader p) := by
      intro fd
      simp only [State.teardown, Function.update_apply]
      split
      · rename_i h
        subst h
        simp [w.writer hg]
      · rfl
    simp only [List.cons_append, List.nil_append, List.mem_cons, reduceCtorEq, false_or, ne_eq, hfd]
    exact acc.closed_iff hlt
  · intro j h hj hd
    rcases Wired.slots_update hj with ⟨-, hh⟩ | ⟨-, hj₀⟩
    · cases hh
    · exact (acc.dead hj₀ hd).trans (List.sublist_append_right _ _)
  · intro p he
    rcases List.mem_cons.mp he with he | he
    · cases he
      exact List.Sublist.cons_cons _ (acc.dead hg hd)
    · exact (acc.ended he).trans (List.sublist_append_right _ _)

/-- A number that names no read end changes hands. -/
theorem setOther (acc : Accounted s log) {fd : Int} {f : Option File}
    (hold : ∀ p, s.files fd ≠ some (.reader p)) (hnew : ∀ p, f ≠ some (.reader p)) :
    Accounted { s with files := Function.update s.files fd f } log := by
  refine ⟨acc.known, acc.slot_or_ended, acc.used, ?_, acc.dead, acc.ended⟩
  intro p hlt
  rw [acc.closed_iff hlt]
  refine forall_congr' fun fd' => ?_
  simp only [Function.update_apply]
  split
  · rename_i h
    subst h
    simp [hold p, hnew p]
  · rfl

theorem close (acc : Accounted s log) (w : Wired s) {fd : Int} {p : Nat}
    (hf : s.files fd = some (.reader p)) :
    Accounted { s with files := Function.update s.files fd none } ([.closed p] ++ log) := by
  refine ⟨?_, ?_, ?_, ?_, ?_, ?_⟩
  · intro o ho
    rcases List.mem_cons.mp ho with rfl | ho
    · exact w.reader_lt hf
    · exact acc.known ho
  · intro q hlt
    rcases acc.slot_or_ended hlt with h | he
    · exact Or.inl h
    · exact Or.inr (List.mem_append_right _ he)
  · intro j h hj he
    exact acc.used hj (by simpa using he)
  · intro q hlt
    simp only [List.cons_append, List.nil_append, List.mem_cons, Obs.closed.injEq, ne_eq,
      Function.update_apply]
    by_cases hq : q = p
    · subst hq
      simp only [true_or, true_iff]
      intro fd' h
      split at h
      · cases h
      · rename_i hne
        obtain ⟨i, g, hg, hp, hr⟩ := w.reader_slot hf
        obtain ⟨j, k, hk, hp', hr'⟩ := w.reader_slot h
        have := w.pipe_inj hk hg (hp'.trans hp.symm)
        subst this
        rw [hg] at hk
        cases hk
        exact hne (hr'.symm.trans hr)
    · simp only [hq, false_or]
      rw [acc.closed_iff hlt]
      refine forall_congr' fun fd' => ?_
      split
      · rename_i h
        subst h
        simp [hf, Ne.symm hq]
      · rfl
  · intro j h hj hd
    exact (acc.dead hj hd).trans (List.sublist_append_right _ _)
  · intro q he
    exact (acc.ended (by simpa using he)).trans (List.sublist_append_right _ _)

theorem move {s' : State} {a : Label} {out : List Obs} (acc : Accounted s log) (w : Wired s)
    (h : Move s a s' out) : Accounted s' (out ++ log) := by
  cases h with
  | stay => exact acc
  | made i flags p0 p1 ha hslot hne h0 h1 => exact acc.install hslot hne h0 h1
  | evolved i g g' room out hg hev hout => exact acc.evolved w hg hev hout
  | ended i g hg hd => exact acc.teardown w hg hd
  | closed fd p hf => exact acc.close w hf
  | released fd id hf => exact acc.setOther (by simp [hf]) (by simp)
  | opened fd id hf => exact acc.setOther (by simp [hf]) (by simp)

theorem of_run {ok : State → Label → Prop} (h : machine.Run ok s log) : Accounted s log := by
  refine (Machine.Run.invariant (P := fun s log => Wired s ∧ Accounted s log)
    ⟨Wired.start, start⟩ ?_ h).2
  intro s log a s' out hw _ hs
  exact ⟨hw.1.move (step_move hs), hw.2.move hw.1 (step_move hs)⟩

end Accounted

/-! ## EMFILE -/

theorem freeSlot_none {s : State} (h : s.freeSlot = none) (i : Fin maxInstances) :
    ∃ g, s.slots i = some g := by
  have := List.find?_eq_none.mp h i (List.mem_finRange i)
  cases hs : s.slots i with
  | none => simp [hs] at this
  | some g => exact ⟨g, rfl⟩

theorem emuInit1_emfile {s : State} {flags : BitVec 32} {fds : Option (Int × Int)} :
    (s.emuInit1 flags fds).result = .error .emfile ↔
      has flags (~~~(inNonblock ||| inCloexec)) = false ∧ s.freeSlot = none := by
  unfold State.emuInit1
  cases hflags : has flags (~~~(inNonblock ||| inCloexec)) with
  | true => simp
  | false =>
    cases hfree : s.freeSlot with
    | none => simp
    | some i => cases fds <;> simp

/-- **Reclaiming.** A call answers EMFILE with every read end open exactly when
the table had room, or every instance closed so far has since had a record
written for it, and its scan thread has ended after that write failed. -/
theorem emfile_only_when_all_open_iff {s : State} {log : List Obs} (h : machine.Run anyStep s log)
    (flags : BitVec 32) (fds : Option (Int × Int)) :
    ((s.emuInit1 flags fds).result = .error .emfile →
      ∀ i, ∃ g, s.slots i = some g ∧ s.readerOpen g = true) ↔
    has flags (~~~(inNonblock ||| inCloexec)) = true ∨ (∃ i, s.slots i = none) ∨
      ∀ p, .closed p ∈ log → Reclaimed log p := by
  have w := Wired.of_run h
  have acc := Accounted.of_run h
  constructor
  · intro hp
    by_cases hflags : has flags (~~~(inNonblock ||| inCloexec)) = true
    · exact Or.inl hflags
    · cases hfree : s.freeSlot with
      | some i => exact Or.inr (Or.inl ⟨i, freeSlot_some hfree⟩)
      | none =>
        have hopen := hp (emuInit1_emfile.mpr ⟨by simpa using hflags, hfree⟩)
        refine Or.inr (Or.inr fun p hc => ?_)
        rcases acc.slot_or_ended (acc.known hc) with ⟨i, g, hg, rfl⟩ | he
        · obtain ⟨g', hg', ho⟩ := hopen i
          rw [hg] at hg'
          cases hg'
          rw [(acc.readerOpen_eq_false w hg).mpr hc] at ho
          cases ho
        · exact acc.ended he
  · intro hc hem i
    obtain ⟨hflags, hfree⟩ := emuInit1_emfile.mp hem
    obtain ⟨g, hg⟩ := freeSlot_none hfree i
    refine ⟨g, hg, ?_⟩
    rcases hc with hbad | ⟨j, hj⟩ | hall
    · rw [hflags] at hbad
      cases hbad
    · obtain ⟨k, hk⟩ := freeSlot_none hfree j
      rw [hj] at hk
      cases hk
    · by_contra hn
      have hclosed := (acc.readerOpen_eq_false w hg).mp (by simpa using hn)
      have hend : Obs.ended g.pipe ∈ log := (hall g.pipe hclosed).subset (by simp)
      exact acc.used hg hend

/-- A watched file that vanishes after the close gives the slot back. -/
theorem emfile_only_when_all_open_iff_vanished :
    ∃ s log, machine.Run anyStep s log ∧ .closed 0 ∈ log ∧
      ((s.emuInit1 0#32 (some (3, 5))).result = .error .emfile →
        ∀ i, ∃ g, s.slots i = some g ∧ s.readerOpen g = true) := by
  have hstart : machine.Run anyStep machine.init [] := .start
  obtain ⟨s, log, hrun, h⟩ := hstart.extend (fun _ _ => true) (fun _ _ _ => trivial)
    [.init1 0#32 (some (3, 4)),
      .addWatch 3 (some [97]) inModify oneFile (fun _ => .ok) ⟨true, true, true⟩,
      .closed 3, .pass slot0 noFile (fun _ => .ok), .exit slot0]
    (fun _ log => log =
      [.ended 0, .failed 0, .closed 0, .watch 0 1, .made 3 0])
    (by decide)
  simp only [decide_eq_true_eq] at h
  refine ⟨s, log, hrun, by simp [h], ?_⟩
  refine (emfile_only_when_all_open_iff hrun 0#32 (some (3, 5))).mpr (Or.inr (Or.inr ?_))
  intro p hp
  have hp : p = 0 := by simpa [h] using hp
  subst hp
  rw [h]
  exact List.sublist_append_left [Obs.ended 0, .failed 0, .closed 0] [Obs.watch 0 1, .made 3 0]

/-- Sixteen instances opened and closed, none of them ever watched. -/
theorem emfile_after_sixteen_closes :
    ∃ s log, machine.Run anyStep s log ∧
      (s.emuInit1 0#32 (some (3, 40))).result = .error .emfile ∧
      ∀ i, (s.slots i).all (fun g => !s.readerOpen g) = true := by
  have hstart : machine.Run anyStep machine.init [] := .start
  obtain ⟨s, log, hrun, h⟩ := hstart.extend (fun _ _ => true) (fun _ _ _ => trivial)
    ((List.range 16).flatMap fun k => [.init1 0#32 (some (3, 4 + k)), .closed 3])
    (fun s _ => s.freeSlot = none ∧ ∀ i, (s.slots i).all (fun g => !s.readerOpen g) = true)
    (by decide)
  simp only [decide_eq_true_eq] at h
  exact ⟨s, log, hrun, emuInit1_emfile.mpr ⟨by decide, h.1⟩, h.2⟩

end ApeShim.Inotify
