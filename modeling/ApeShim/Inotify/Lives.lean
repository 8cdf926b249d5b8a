import ApeShim.Inotify.Instances
import ApeShim.Inotify.Rounds

/-!
The life of one instance: rounds of its scan thread and the calls made on it, one after the
other. Every instance of the table has such a life behind it (`exists_life`).
-/

namespace ApeShim.Inotify
open Flags Trace

/-- What is done to an instance under its lock. -/
inductive Op
  | pass (host : Host)
  | addWatch (ls : Listing) (res : Resources) (path : Name) (mask : Mask) (st : Stat)
  | rmWatch (wd : Int)

def Inst.apply (wr : Nat → Written) (g : Inst) : Op → Inst
  | .pass host => g.pass wr host
  | .addWatch ls res path mask st => (g.addWatch wr ls res path mask st).1
  | .rmWatch wd => (g.rmWatch wr wd).1

def Inst.fresh (rfd wfd : Int) (pipe : Nat) : Inst :=
  ⟨rfd, wfd, 1, false, false, false, [], pipe, []⟩

/-- The scan thread runs once it has been started, and nothing is done to a dead instance. -/
def Inst.enabled (g : Inst) : Op → Bool
  | .pass _ => g.scanning && !g.dead
  | _ => !g.dead

/-- The writes of the whole life are numbered. What shows is the descriptors on the list after
each operation. -/
def life (wr : Nat → Written) (g₀ : Inst) : Machine Inst Op Int where
  init := g₀
  step g a :=
    if g.enabled a then some (g.apply wr a, (g.apply wr a).watches.map Watch.wd) else none

theorem life_step {wr : Nat → Written} {g₀ g g' : Inst} {a : Op} {out : List Int}
    (h : (life wr g₀).step g a = some (g', out)) :
    g.enabled a = true ∧ g' = g.apply wr a ∧ out = g'.watches.map Watch.wd := by
  simp only [life, Option.ite_none_right_eq_some, Option.some.injEq, Prod.mk.injEq] at h
  obtain ⟨henabled, rfl, rfl⟩ := h
  exact ⟨henabled, rfl, rfl⟩

theorem Inst.enabled_live {g : Inst} {a : Op} (h : g.enabled a = true) : g.dead = false := by
  cases a with
  | pass host => simpa using (Bool.and_eq_true_iff.mp h).2
  | addWatch ls res path mask st => simpa [Inst.enabled] using h
  | rmWatch wd => simpa [Inst.enabled] using h

/-! ## Only the writes made matter -/

section

variable {wr wr' : Nat → Written} {g : Inst}

/-- What `emit` does to a live instance. -/
theorem emit_of_live (hlive : g.dead = false) (wd : Int) (mask : Mask) (name : Name) :
    g.emit wr wd mask name = { g with
      sent := record wd mask name :: g.sent
      overflow := g.overflow || decide (wr g.sent.length = .took .again)
      dead := decide (wr g.sent.length = .failed) } := by
  unfold Inst.emit
  rw [if_neg (by simp [hlive])]
  cases hout : wr g.sent.length with
  | failed => simp
  | took r => cases r <;> simp [hlive]

theorem emit_of_dead (hdead : g.dead = true) (wd : Int) (mask : Mask) (name : Name) :
    g.emit wr wd mask name = g := if_pos hdead

theorem sent_emit_le (wd : Int) (mask : Mask) (name : Name) :
    g.sent.length ≤ (g.emit wr wd mask name).sent.length := by
  cases hdead : g.dead with
  | true => rw [emit_of_dead hdead]
  | false => simp [emit_of_live hdead]

theorem sent_emitEach_le (calls : List Call) :
    g.sent.length ≤ (g.emitEach wr calls).sent.length := by
  induction calls generalizing g with
  | nil => exact le_refl _
  | cons c calls ih => exact (sent_emit_le ..).trans ih

theorem emitEach_congr {calls : List Call}
    (h : ∀ k, g.sent.length ≤ k → k < (g.emitEach wr calls).sent.length → wr' k = wr k) :
    g.emitEach wr' calls = g.emitEach wr calls := by
  induction calls generalizing g with
  | nil => rfl
  | cons c calls ih =>
    rw [emitEach_cons, emitEach_cons]
    have hfirst : g.emit wr' c.wd c.mask c.name = g.emit wr c.wd c.mask c.name := by
      cases hdead : g.dead with
      | true => rw [emit_of_dead hdead, emit_of_dead hdead]
      | false =>
        have hsent : g.sent.length < (g.emit wr c.wd c.mask c.name).sent.length := by
          simp [emit_of_live hdead]
        have hlast := @sent_emitEach_le wr (g.emit wr c.wd c.mask c.name) calls
        rw [emit_of_live hdead, emit_of_live hdead, h _ (le_refl _) (lt_of_lt_of_le hsent hlast)]
    rw [hfirst]
    refine ih fun k hk hlt => h k ?_ hlt
    exact (sent_emit_le ..).trans hk

/-- Adding a watch writes nothing. -/
theorem addWatch_congr (ls : Listing) (res : Resources) (path : Name) (mask : Mask) (st : Stat) :
    g.addWatch wr' ls res path mask st = g.addWatch wr ls res path mask st := by
  simp only [Inst.addWatch, firstScan_eq]

/-- Nothing written, nothing dropped. -/
structure Inst.Quiet (g g' : Inst) : Prop where
  sent : g'.sent = g.sent
  overflow : g'.overflow = g.overflow
  dead : g'.dead = g.dead

theorem addWatch_frame (ls : Listing) (res : Resources) (path : Name) (mask : Mask) (st : Stat) :
    g.Quiet (g.addWatch wr ls res path mask st).1 := by
  simp only [Inst.addWatch, firstScan_eq]
  split <;> split_ifs <;> exact ⟨rfl, rfl, rfl⟩

theorem rmWatch_eq (wd : Int) :
    (g.rmWatch wr wd).1 =
      if g.watches.any fun w => w.wd = wd && !w.dropped then
        { g.emitEach wr [⟨wd, inIgnored, []⟩] with
          watches := g.watches.eraseP fun w => w.wd = wd && !w.dropped }
      else g := by
  unfold Inst.rmWatch
  simp only [emitEach_cons, emitEach_nil]
  split_ifs <;> rfl

theorem apply_congr {a : Op}
    (h : ∀ k, g.sent.length ≤ k → k < (g.apply wr a).sent.length → wr' k = wr k) :
    g.apply wr' a = g.apply wr a := by
  cases a with
  | pass host =>
    simp only [Inst.apply, pass_eq] at h ⊢
    rw [@emitEach_congr wr wr' { g with overflow := false } _ h]
  | addWatch ls res path mask st => simp only [Inst.apply, @addWatch_congr wr wr']
  | rmWatch wd =>
    simp only [Inst.apply, rmWatch_eq] at h ⊢
    split_ifs at h ⊢
    · rw [emitEach_congr h]
    · rfl

theorem sent_apply_le (a : Op) : g.sent.length ≤ (g.apply wr a).sent.length := by
  cases a with
  | pass host =>
    simp only [Inst.apply, pass_eq]
    exact @sent_emitEach_le wr { g with overflow := false } _
  | addWatch ls res path mask st => exact le_of_eq (congrArg _ (addWatch_frame ..).sent.symm)
  | rmWatch wd =>
    simp only [Inst.apply, rmWatch_eq]
    split_ifs
    · exact sent_emitEach_le _
    · exact le_refl _

end

/-- A life led with the writes so numbered is led with any that agree on those made. -/
theorem life_congr {wr wr' : Nat → Written} {g₀ g : Inst} {ok : Inst → Op → Prop} {log : List Int}
    (h : (life wr g₀).Run ok g log) (hwr : ∀ k < g.sent.length, wr' k = wr k) :
    (life wr' g₀).Run ok g log := by
  induction h with
  | start => exact .start
  | next hrun hok hstep ih =>
    rename_i g g' a log out
    obtain ⟨henabled, rfl, rfl⟩ := life_step hstep
    have hsame : g.apply wr' a = g.apply wr a := apply_congr fun k _ hk => hwr k hk
    refine .next (ih fun k hk => hwr k (lt_of_lt_of_le hk (sent_apply_le a))) hok ?_
    simp only [life, henabled, if_true, hsame]

/-- One more operation, whatever its writes answer. -/
theorem life_next {wr wr' : Nat → Written} {g₀ g : Inst} {ok : Inst → Op → Prop} {log : List Int}
    (h : (life wr g₀).Run ok g log) {a : Op} (hok : ok g a) (henabled : g.enabled a = true) :
    ∃ wr'' log', (life wr'' g₀).Run ok (g.apply wr' a) log' := by
  let wr'' : Nat → Written := fun k => if k < g.sent.length then wr k else wr' k
  have hsame : g.apply wr'' a = g.apply wr' a :=
    apply_congr fun k hk _ => if_neg (by omega)
  have hrun : (life wr'' g₀).Run ok g log := life_congr h fun k hk => if_pos hk
  have hstep : (life wr'' g₀).step g a =
      some (g.apply wr' a, (g.apply wr' a).watches.map Watch.wd) := by
    simp only [life, henabled, if_true, hsame]
  exact ⟨wr'', _, .next hrun hok hstep⟩

/-! ## The lives of the table's instances -/

/-- The label does this to the instance of a slot. -/
inductive Does (s : State) : Label → Fin maxInstances → Inst → Op → (Nat → Written) → Prop
  | pass {i : Fin maxInstances} {g : Inst} {host : Host} {room : Nat → Room}
      (hg : s.slots i = some g) (henabled : g.enabled (.pass host) = true) :
      Does s (.pass i host room) i g (.pass host) (s.writes g room)
  | addWatch {fd : Int} {path : Option Name} {mask : Mask} {host : Host} {room : Nat → Room}
      {res : Resources} {i : Fin maxInstances} {g : Inst} {p : Name} {st : Stat}
      (htarget : s.target fd path mask host = .ok (i, g, p, st)) :
      Does s (.addWatch fd path mask host room res) i g
        (.addWatch (host.opendir p) res p mask st) (s.writes g room)
  | rmWatch {fd wd : Int} {room : Nat → Room} {i : Fin maxInstances} {g : Inst}
      (hfound : s.instByFd fd = some (i, g)) :
      Does s (.rmWatch fd wd room) i g (.rmWatch wd) (s.writes g room)

theorem Does.found {s : State} {l : Label} {i : Fin maxInstances} {g : Inst} {a : Op}
    {wr : Nat → Written} (h : Does s l i g a wr) :
    s.slots i = some g ∧ g.enabled a = true := by
  cases h with
  | pass hg henabled => exact ⟨hg, henabled⟩
  | addWatch htarget =>
    obtain ⟨hg, hdead, _⟩ := instByFd_some (target_ok htarget).1
    exact ⟨hg, by simp [Inst.enabled, hdead]⟩
  | rmWatch hfound =>
    obtain ⟨hg, hdead, _⟩ := instByFd_some hfound
    exact ⟨hg, by simp [Inst.enabled, hdead]⟩

/-- A slot's instance was there before the step, was made by it, or was operated on. -/
theorem step_slots {s s' : State} {l : Label} {out : List Obs}
    (h : State.step s l = some (s', out)) {i : Fin maxInstances} {g' : Inst}
    (hg' : s'.slots i = some g') :
    s.slots i = some g' ∨ g' = .fresh g'.rfd g'.wfd g'.pipe ∨
      ∃ g a wr, Does s l i g a wr ∧ g' = g.apply wr a := by
  have hput : ∀ {j : Fin maxInstances} {a : Op} {wr : Nat → Written} {g : Inst},
      Does s l j g a wr → s' = s.put j (g.apply wr a) →
      s.slots i = some g' ∨ g' = .fresh g'.rfd g'.wfd g'.pipe ∨
        ∃ g a wr, Does s l i g a wr ∧ g' = g.apply wr a := by
    rintro j a wr g hdoes rfl
    simp only [State.put, Function.update_apply] at hg'
    split_ifs at hg' with hij
    · subst hij
      cases hg'
      exact .inr (.inr ⟨g, a, wr, hdoes, rfl⟩)
    · exact .inl hg'
  cases l with
  | init1 flags fds =>
    simp only [State.step, Option.ite_none_right_eq_some, Option.some.injEq, Prod.mk.injEq] at h
    obtain ⟨_, rfl, _⟩ := h
    rcases emuInit1_cases s flags fds with ⟨hs, _⟩ | ⟨j, p0, p1, _, _, hs, _⟩
    · rw [hs] at hg'
      exact .inl hg'
    · rw [hs] at hg'
      simp only [State.install, Function.update_apply] at hg'
      split_ifs at hg'
      · cases hg'
        exact .inr (.inl rfl)
      · exact .inl hg'
  | addWatch fd path mask host room res =>
    simp only [State.step, Option.some.injEq, Prod.mk.injEq] at h
    obtain ⟨hs, _⟩ := h
    cases htarget : s.target fd path mask host with
    | error e =>
      simp only [State.emuAddWatch, htarget] at hs
      rw [← hs] at hg'
      exact .inl hg'
    | ok r =>
      obtain ⟨j, g, p, st⟩ := r
      simp only [State.emuAddWatch, htarget] at hs
      exact hput (.addWatch htarget) hs.symm
  | rmWatch fd wd room =>
    simp only [State.step, Option.some.injEq, Prod.mk.injEq] at h
    obtain ⟨hs, _⟩ := h
    cases hfound : s.instByFd fd with
    | none =>
      simp only [State.emuRmWatch, hfound] at hs
      rw [← hs] at hg'
      exact .inl hg'
    | some r =>
      obtain ⟨j, g⟩ := r
      simp only [State.emuRmWatch, hfound] at hs
      exact hput (.rmWatch hfound) hs.symm
  | pass j host room =>
    simp only [State.step] at h
    cases hg : s.slots j with
    | none => simp [hg] at h
    | some g =>
      simp only [hg, Option.ite_none_right_eq_some, Option.some.injEq, Prod.mk.injEq] at h
      obtain ⟨henabled, hs, _⟩ := h
      exact hput (.pass hg henabled) hs.symm
  | exit j =>
    simp only [State.step] at h
    cases hg : s.slots j with
    | none => simp [hg] at h
    | some g =>
      simp only [hg, Option.ite_none_right_eq_some, Option.some.injEq, Prod.mk.injEq] at h
      obtain ⟨_, rfl, _⟩ := h
      simp only [State.teardown, Function.update_apply] at hg'
      split_ifs at hg'
      exact .inl hg'
  | closed fd =>
    simp only [State.step] at h
    split at h
    · cases h
      exact .inl hg'
    · cases h
      exact .inl hg'
    · cases h
  | opened fd id =>
    simp only [State.step, Option.ite_none_right_eq_some, Option.some.injEq, Prod.mk.injEq] at h
    obtain ⟨_, rfl, _⟩ := h
    exact .inl hg'

theorem Inst.Evolves.apply {wr : Nat → Written} (g : Inst) (a : Op) :
    g.Evolves wr (g.apply wr a) := by
  cases a with
  | pass host => exact (Inst.Emitted.pass host g).toEvolves
  | addWatch ls res path mask st => exact .addWatch ls res g path mask st
  | rmWatch wd => exact (Inst.Emitted.rmWatch g wd).toEvolves

/-- Behind every instance of the table is a life of its own, guarded as the table's steps
were. -/
theorem exists_life {okₛ : State → Label → Prop} {ok : Inst → Op → Prop}
    (hok : ∀ s l i g a wr, okₛ s l → Does s l i g a wr → ok g a) {s : State} {log : List Obs}
    (h : machine.Run okₛ s log) {i : Fin maxInstances} {g : Inst} (hg : s.slots i = some g) :
    ∃ wr used, (life wr (.fresh g.rfd g.wfd g.pipe)).Run ok g used := by
  refine Machine.Run.invariant (P := fun s _ => ∀ i g, s.slots i = some g →
    ∃ wr used, (life wr (.fresh g.rfd g.wfd g.pipe)).Run ok g used) ?_ ?_ h i g hg
  · intro i g hg
    simp [machine, State.init] at hg
  · intro s log l s' out ih hlabel hstep i g' hg'
    rcases step_slots hstep hg' with hold | hnew | ⟨g, a, wr, hdoes, rfl⟩
    · exact ih i g' hold
    · refine ⟨fun _ => .failed, [], ?_⟩
      rw [← hnew]
      exact .start
    · obtain ⟨hg, henabled⟩ := hdoes.found
      obtain ⟨wr₀, used, hlife⟩ := ih i g hg
      have hkeeps := @Inst.Evolves.apply wr g a
      rw [hkeeps.rfd, hkeeps.wfd, hkeeps.pipe]
      exact life_next hlife (hok s l i g a wr hlabel hdoes) henabled

end ApeShim.Inotify
