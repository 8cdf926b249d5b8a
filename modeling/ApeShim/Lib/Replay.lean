import Mathlib.Data.List.Basic

/-!
Runs of a total step function: its answers, the states it visits, and two machines that
run side by side.
-/

namespace Replay

variable {σ τ α β : Type*}

/-- The answers along a run. -/
def outs (step : σ → α → σ × β) : σ → List α → List β
  | _, [] => []
  | s, a :: as => (step s a).2 :: outs step (step s a).1 as

/-- Where a run ends. -/
def last (step : σ → α → σ × β) : σ → List α → σ
  | s, [] => s
  | s, a :: as => last step (step s a).1 as

/-- The states of a run, each with the label that leaves it. -/
def visits (step : σ → α → σ × β) : σ → List α → List (σ × α)
  | _, [] => []
  | s, a :: as => (s, a) :: visits step (step s a).1 as

variable {step : σ → α → σ × β} {s : σ} {as : List α}

theorem mem_of_mem_visits {x : σ × α} (h : x ∈ visits step s as) : x.2 ∈ as := by
  induction as generalizing s with
  | nil => cases h
  | cons a as ih =>
    rcases List.mem_cons.mp h with rfl | h
    · exact List.mem_cons_self
    · exact List.mem_cons_of_mem a (ih h)

/-- A run that stops early visits the first of the states. -/
theorem visits_take (n : Nat) : visits step s (as.take n) = (visits step s as).take n := by
  induction as generalizing s n with
  | nil => simp [visits]
  | cons a as ih =>
    cases n with
    | zero => rfl
    | succ n => rw [List.take_succ_cons, visits, visits, List.take_succ_cons, ih]

/-- **Simulation rule.** Machines whose related states answer alike, and stay related, answer
alike along every run. -/
theorem outs_eq {step' : τ → α → τ × β} {R : σ → τ → Prop} {ok : α → Prop}
    (hstep : ∀ s t a, R s t → ok a →
      (step s a).2 = (step' t a).2 ∧ R (step s a).1 (step' t a).1)
    {t : τ} (hR : R s t) (hok : ∀ a ∈ as, ok a) : outs step s as = outs step' t as := by
  induction as generalizing s t with
  | nil => rfl
  | cons a as ih =>
    obtain ⟨hout, hnext⟩ := hstep s t a hR (hok a List.mem_cons_self)
    rw [outs, outs, hout, ih hnext fun b hb => hok b (List.mem_cons_of_mem a hb)]

end Replay
