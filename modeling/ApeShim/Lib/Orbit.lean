import Mathlib.Data.Fintype.EquivFin
import Mathlib.Data.List.Basic

/-!
Following a partial function: the states that are passed before one is reached that has no next. Over
finitely many states this ends if and only if no state is passed twice.
-/

namespace Orbit

variable {σ : Type*} {next : σ → Option σ}

/-- The state after so many steps, if there are that many. -/
def after (next : σ → Option σ) : Nat → σ → Option σ
  | 0, s => some s
  | n + 1, s => (next s).bind (after next n)

/-- The states that are passed, up to the last, which has no next. -/
inductive Trail (next : σ → Option σ) : σ → List σ → Prop
  | stop {s : σ} : next s = none → Trail next s []
  | step {s t : σ} {l : List σ} : next s = some t → Trail next t l → Trail next s (s :: l)

/-- No state is reached twice. -/
def Onward (next : σ → Option σ) (s : σ) : Prop :=
  ∀ i j t, after next i s = some t → after next j s = some t → i = j

variable {s t : σ} {l l' : List σ}

theorem after_succ (n : Nat) (s : σ) : after next (n + 1) s = (after next n s).bind next := by
  induction n generalizing s with
  | zero => exact Option.bind_fun_some _
  | succ n ih =>
    rw [after]
    cases hs : next s with
    | none => rw [after, hs]; rfl
    | some t => rw [Option.bind_some, ih, after, hs, Option.bind_some]

theorem Trail.unique (h : Trail next s l) (h' : Trail next s l') : l = l' := by
  induction h generalizing l' with
  | stop hs =>
    cases h' with
    | stop => rfl
    | step hs' => rw [hs] at hs'; cases hs'
  | step hs _ ih =>
    cases h' with
    | stop hs' => rw [hs] at hs'; cases hs'
    | step hs' ht' =>
      rw [hs] at hs'
      cases hs'
      rw [ih ht']

/-- What is left of a trail from a state on it. -/
theorem Trail.rest (h : Trail next s l) {n : Nat} (hn : after next n s = some t) :
    ∃ l', Trail next t l' ∧ l.length = n + l'.length := by
  induction n generalizing s l with
  | zero =>
    cases hn
    exact ⟨l, h, (Nat.zero_add _).symm⟩
  | succ n ih =>
    obtain ⟨u, hu, hrest⟩ := Option.bind_eq_some_iff.mp hn
    cases h with
    | stop hs => rw [hs] at hu; cases hu
    | step hs htail =>
      rw [hs] at hu
      cases hu
      obtain ⟨l', hl', hlen⟩ := ih htail hrest
      exact ⟨l', hl', by rw [List.length_cons, hlen, Nat.add_right_comm]⟩

theorem Trail.onward (h : Trail next s l) : Onward next s := by
  intro i j t hi hj
  obtain ⟨li, hli, hleni⟩ := h.rest hi
  obtain ⟨lj, hlj, hlenj⟩ := h.rest hj
  rw [hli.unique hlj] at hleni
  omega

/-- The states on a trail are those that are reached and have a next. -/
theorem Trail.mem_iff (h : Trail next s l) :
    t ∈ l ↔ (∃ n, after next n s = some t) ∧ next t ≠ none := by
  induction h with
  | stop hs =>
    simp only [List.not_mem_nil, false_iff, not_and]
    rintro ⟨n, hn⟩ ht
    cases n with
    | zero => cases hn; exact ht hs
    | succ n => rw [after, hs] at hn; cases hn
  | @step s u l hs _ ih =>
    rw [List.mem_cons, ih]
    constructor
    · rintro (rfl | ⟨⟨n, hn⟩, ht⟩)
      · exact ⟨⟨0, rfl⟩, by rw [hs]; exact Option.some_ne_none u⟩
      · exact ⟨⟨n + 1, by rw [after, hs]; exact hn⟩, ht⟩
    · rintro ⟨⟨n, hn⟩, ht⟩
      cases n with
      | zero => cases hn; exact Or.inl rfl
      | succ n =>
        rw [after, hs] at hn
        exact Or.inr ⟨⟨n, hn⟩, ht⟩

/-- **Pigeonhole.** Following the function ends if and only if no state is reached twice. -/
theorem exists_trail_iff [Finite σ] : (∃ l, Trail next s l) ↔ Onward next s := by
  constructor
  · rintro ⟨l, hl⟩
    exact hl.onward
  · intro hon
    by_contra hno
    have hall : ∀ n, ∃ t, after next n s = some t ∧ ¬ ∃ l, Trail next t l := by
      intro n
      induction n with
      | zero => exact ⟨s, rfl, hno⟩
      | succ n ih =>
        obtain ⟨t, ht, hend⟩ := ih
        cases hnext : next t with
        | none => exact absurd ⟨[], .stop hnext⟩ hend
        | some u =>
          refine ⟨u, ?_, ?_⟩
          · rw [after_succ, ht]
            exact hnext
          · rintro ⟨l, hl⟩
            exact hend ⟨t :: l, .step hnext hl⟩
    choose f hf using hall
    exact not_injective_infinite_finite f fun i j hij => hon i j (f i) (hf i).1 (hij ▸ (hf j).1)

end Orbit
