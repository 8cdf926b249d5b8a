import Mathlib.Data.List.Basic

/-!
Machines whose labelled steps emit observations. A run is any finite sequence
of enabled steps; `Run ok s log` says that some run whose every step meets the
guard `ok` ends in `s` with the observations `log`, newest first. Nothing here
depends on what the states or the labels are.
-/

namespace Trace

/-- `step s a = none` means that `a` is not enabled in `s`. -/
structure Machine (σ ι ο : Type*) where
  init : σ
  step : σ → ι → Option (σ × List ο)

variable {σ ι ο : Type*}

inductive Machine.Run (m : Machine σ ι ο) (ok : σ → ι → Prop) : σ → List ο → Prop
  | start : Run m ok m.init []
  | next {s s' : σ} {a : ι} {log out : List ο} :
      Run m ok s log → ok s a → m.step s a = some (s', out) → Run m ok s' (out ++ log)

/-- The guard that lets every step through. -/
def anyStep (_ : σ) (_ : ι) : Prop := True

/-- **Invariant rule.** What holds at the start and is kept by every guarded
step holds wherever a guarded run can get. -/
theorem Machine.Run.invariant {m : Machine σ ι ο} {ok : σ → ι → Prop}
    {P : σ → List ο → Prop} (h0 : P m.init [])
    (hstep : ∀ s log a s' out, P s log → ok s a → m.step s a = some (s', out) →
      P s' (out ++ log))
    {s : σ} {log : List ο} (h : m.Run ok s log) : P s log := by
  induction h with
  | start => exact h0
  | next _ hok hs ih => exact hstep _ _ _ _ _ ih hok hs

/-! ## Replaying a list of labels -/

/-- Run the labels from a state, checking the guard on the way. -/
def Machine.replay (m : Machine σ ι ο) (ok : σ → ι → Bool) :
    σ → List ο → List ι → Option (σ × List ο)
  | s, log, [] => some (s, log)
  | s, log, a :: rest =>
      if ok s a then
        match m.step s a with
        | none => none
        | some (s', out) => replay m ok s' (out ++ log) rest
      else none

theorem Machine.Run.of_replay {m : Machine σ ι ο} {ok : σ → ι → Prop} {okb : σ → ι → Bool}
    (hok : ∀ s a, okb s a = true → ok s a) (labels : List ι) :
    ∀ {s s' : σ} {log log' : List ο}, m.Run ok s log →
      m.replay okb s log labels = some (s', log') → m.Run ok s' log' := by
  induction labels with
  | nil =>
    intro s s' log log' h hr
    simp only [Machine.replay, Option.some.injEq, Prod.mk.injEq] at hr
    obtain ⟨rfl, rfl⟩ := hr
    exact h
  | cons a rest ih =>
    intro s s' log log' h hr
    simp only [Machine.replay] at hr
    split at hr
    · rename_i hg
      cases hs : m.step s a with
      | none => simp [hs] at hr
      | some r =>
        simp only [hs] at hr
        exact ih (.next h (hok s a hg) hs) hr
    · cases hr

/-- A replay that ends where `P` holds extends a run to one that ends there. -/
theorem Machine.Run.extend {m : Machine σ ι ο} {ok : σ → ι → Prop} {s : σ} {log : List ο}
    (h : m.Run ok s log) (okb : σ → ι → Bool) (hok : ∀ s a, okb s a = true → ok s a)
    (labels : List ι) (P : σ → List ο → Bool)
    (hP : (m.replay okb s log labels).any (fun r => P r.1 r.2) = true) :
    ∃ s' log', m.Run ok s' log' ∧ P s' log' = true := by
  cases hr : m.replay okb s log labels with
  | none => simp [hr] at hP
  | some r =>
    rw [hr] at hP
    exact ⟨r.1, r.2, Machine.Run.of_replay hok labels h hr, hP⟩

/-! ## What happened since -/

/-- In a log read newest first: some `hit` has happened, and no `reset` after it. -/
def Since (reset hit : ο → Prop) : List ο → Prop
  | [] => False
  | o :: rest => hit o ∨ (¬ reset o ∧ Since reset hit rest)

theorem since_append_iff {reset hit : ο → Prop} {log out : List ο} (hout : ∀ o ∈ out, ¬ reset o) :
    Since reset hit (out ++ log) ↔ (∃ o ∈ out, hit o) ∨ Since reset hit log := by
  induction out with
  | nil => simp
  | cons o out ih =>
    rw [List.forall_mem_cons] at hout
    simp only [List.cons_append, Since, ih hout.2, hout.1, not_false_eq_true, true_and,
      List.exists_mem_cons_iff, or_assoc]

theorem Since.append {reset hit : ο → Prop} {log : List ο} (h : Since reset hit log) :
    ∀ out : List ο, (∀ o ∈ out, ¬ reset o) → Since reset hit (out ++ log)
  | [], _ => h
  | o :: out, hout =>
    Or.inr ⟨hout o (by simp), h.append out (fun x hx => hout x (by simp [hx]))⟩

theorem Since.of_mem {reset hit : ο → Prop} {o : ο} {log : List ο} (ho : hit o) :
    ∀ out : List ο, o ∈ out → (∀ x ∈ out, ¬ reset x) → Since reset hit (out ++ log)
  | [], hm, _ => by simp at hm
  | x :: out, hm, hout => by
    rcases List.mem_cons.mp hm with rfl | hm
    · exact Or.inl ho
    · exact Or.inr ⟨hout x (by simp), Since.of_mem ho out hm (fun y hy => hout y (by simp [hy]))⟩

end Trace
