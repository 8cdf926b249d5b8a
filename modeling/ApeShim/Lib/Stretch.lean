import Mathlib.Data.List.Basic
import Mathlib.Data.List.Range

/-!
Cells on a line, in stretches: what is done to all cells from one place up to another, and the run of
equal cells that begins at a place.
-/

namespace Stretch

variable {α : Type*}

/-- The cells from `a` up to `b` are changed. -/
def change (m : Nat → α) (a b : Nat) (f : α → α) : Nat → α := fun q =>
  if a ≤ q ∧ q < b then f (m q) else m q

/-- All cells from `a` up to `b` have the property. -/
def all (m : Nat → α) (a b : Nat) (P : α → Bool) : Bool :=
  (List.range' a (b - a)).all fun q => P (m q)

/-- How many of `n` cells from `q` on are equal to `x`, up to the first that is not. -/
def run [DecidableEq α] (m : Nat → α) (x : α) (q : Nat) : Nat → Nat
  | 0 => 0
  | n + 1 => if m q = x then run m x (q + 1) n + 1 else 0

section
variable {m : Nat → α} {a b q : Nat} {f : α → α}

theorem change_in (h : a ≤ q) (h' : q < b) : change m a b f q = f (m q) := if_pos ⟨h, h'⟩

theorem change_out (h : ¬ (a ≤ q ∧ q < b)) : change m a b f q = m q := if_neg h

theorem change_id (h : ∀ q, a ≤ q → q < b → f (m q) = m q) : change m a b f = m := by
  funext q
  by_cases hq : a ≤ q ∧ q < b
  · rw [change_in hq.1 hq.2, h q hq.1 hq.2]
  · exact change_out hq

/-- Two changes, one after the other. -/
theorem change_comp (f g : α → α) : change (change m a b f) a b g = change m a b (g ∘ f) := by
  funext q
  by_cases hq : a ≤ q ∧ q < b
  · rw [change_in hq.1 hq.2, change_in hq.1 hq.2, change_in hq.1 hq.2]
    rfl
  · rw [change_out hq, change_out hq, change_out hq]

theorem all_iff {P : α → Bool} : all m a b P = true ↔ ∀ q, a ≤ q → q < b → P (m q) = true := by
  rw [all, List.all_eq_true]
  constructor
  · intro h q ha hb
    exact h q (List.mem_range'_1.mpr (by omega))
  · intro h q hq
    have := List.mem_range'_1.mp hq
    exact h q (by omega) (by omega)

end

section Run
variable [DecidableEq α] {m : Nat → α} {x : α} {q : Nat}

theorem run_le (n : Nat) : run m x q n ≤ n := by
  induction n generalizing q with
  | zero => exact Nat.le_refl 0
  | succ n ih =>
    rw [run]
    split
    · have := ih (q := q + 1)
      omega
    · omega

theorem eq_of_run {n i : Nat} (h : i < run m x q n) : m (q + i) = x := by
  induction n generalizing q i with
  | zero => cases h
  | succ n ih =>
    rw [run] at h
    split at h
    · rename_i hx
      cases i with
      | zero => exact hx
      | succ i =>
        have := ih (q := q + 1) (i := i) (by omega)
        rwa [Nat.add_right_comm] at this
    · cases h

theorem run_pos {n : Nat} (hn : 0 < n) : 0 < run m (m q) q n := by
  cases n with
  | zero => cases hn
  | succ n =>
    rw [run, if_pos rfl]
    exact Nat.succ_pos _

end Run

end Stretch
