import Mathlib.Data.List.Basic
import Mathlib.Data.List.Rotate

/-!
A window that shifts over a list. A draw takes the first `n` elements that are not to be
skipped, and everything it went past goes to the end of the list. Between two draws elements
come in at the front and go away anywhere. An element that is not skipped is drawn as soon as
the draws outnumber what was ahead of it and what came in since.
-/

namespace Window

variable {α : Type*}

/-! ## One draw -/

/-- The elements taken, everything the draw went past, and the rest. -/
def draw (skip : α → Bool) : Nat → List α → List α × List α × List α
  | 0, l => ([], [], l)
  | _ + 1, [] => ([], [], [])
  | n + 1, a :: l =>
      if skip a then
        let r := draw skip (n + 1) l
        (r.1, a :: r.2.1, r.2.2)
      else
        let r := draw skip n l
        (a :: r.1, a :: r.2.1, r.2.2)

/-- The list after a draw. -/
def turn (skip : α → Bool) (n : Nat) (l : List α) : List α :=
  (draw skip n l).2.2 ++ (draw skip n l).2.1

section Draw

variable (skip : α → Bool)

/-- A draw asks only about what is in the list. -/
theorem draw_congr {skip skip' : α → Bool} (n : Nat) (l : List α) (h : ∀ a ∈ l, skip a = skip' a) :
    draw skip n l = draw skip' n l := by
  induction l generalizing n with
  | nil => cases n <;> rfl
  | cons a l ih =>
    obtain ⟨ha, hl⟩ := List.forall_mem_cons.mp h
    cases n with
    | zero => rfl
    | succ n => rw [draw, draw, ha, ih (n + 1) hl, ih n hl]

theorem draw_append (n : Nat) (l : List α) : (draw skip n l).2.1 ++ (draw skip n l).2.2 = l := by
  induction l generalizing n with
  | nil => cases n <;> rfl
  | cons a l ih =>
    cases n with
    | zero => rfl
    | succ n =>
      rw [draw]
      split
      · exact congrArg (a :: ·) (ih (n + 1))
      · exact congrArg (a :: ·) (ih n)

/-- What is taken is what was gone past and not skipped. -/
theorem draw_taken (n : Nat) (l : List α) :
    (draw skip n l).1 = (draw skip n l).2.1.filter fun a => !skip a := by
  induction l generalizing n with
  | nil => cases n <;> rfl
  | cons a l ih =>
    cases n with
    | zero => rfl
    | succ n =>
      rw [draw]
      split
      · rename_i hs
        rw [List.filter_cons_of_neg (by simp [hs])]
        exact ih (n + 1)
      · rename_i hs
        rw [List.filter_cons_of_pos (by simp [hs])]
        exact congrArg (a :: ·) (ih n)

theorem draw_length_le (n : Nat) (l : List α) : (draw skip n l).1.length ≤ n := by
  induction l generalizing n with
  | nil => cases n <;> exact Nat.zero_le _
  | cons a l ih =>
    cases n with
    | zero => exact Nat.zero_le _
    | succ n =>
      rw [draw]
      split
      · exact ih (n + 1)
      · exact Nat.succ_le_succ (ih n)

/-- A draw that takes fewer than it may has gone past everything. -/
theorem draw_rest (n : Nat) (l : List α) (h : (draw skip n l).1.length < n) :
    (draw skip n l).2.2 = [] := by
  induction l generalizing n with
  | nil => cases n <;> rfl
  | cons a l ih =>
    cases n with
    | zero => exact absurd h (Nat.not_lt_zero _)
    | succ n =>
      rw [draw] at h ⊢
      split at h
      · rename_i hs
        rw [if_pos hs]
        exact ih (n + 1) h
      · rename_i hs
        rw [if_neg hs]
        exact ih n (Nat.lt_of_succ_lt_succ h)

/-- **A draw takes the first elements** that are not skipped, and turns the list. -/
theorem draw_spec (n : Nat) (l : List α) :
    (draw skip n l).1 = (l.filter fun a => !skip a).take n ∧
      turn skip n l = l.rotate (draw skip n l).2.1.length := by
  have happend := draw_append skip n l
  have htaken := draw_taken skip n l
  refine ⟨?_, ?_⟩
  · have hsplit : (l.filter fun a => !skip a) =
        (draw skip n l).1 ++ (draw skip n l).2.2.filter fun a => !skip a := by
      rw [htaken, ← List.filter_append, happend]
    rw [hsplit]
    rcases Nat.lt_or_ge (draw skip n l).1.length n with hlt | hge
    · rw [draw_rest skip n l hlt, List.filter_nil, List.append_nil, List.take_of_length_le (by omega)]
    · have hlen : (draw skip n l).1.length = n := Nat.le_antisymm (draw_length_le skip n l) hge
      rw [List.take_append_of_le_length (by omega), List.take_of_length_le (by omega)]
  · rw [turn]
    have hrot := List.rotate_append_length_eq (draw skip n l).2.1 (draw skip n l).2.2
    rw [happend] at hrot
    exact hrot.symm

theorem mem_turn (n : Nat) (l : List α) (x : α) : x ∈ turn skip n l ↔ x ∈ l := by
  rw [(draw_spec skip n l).2, List.mem_rotate]

end Draw

/-! ## Draws between which elements come and go -/

inductive Event (α : Type*)
  | birth (a : α)
  | leave (a : α)
  | draw (skip : α → Bool)

variable [DecidableEq α]

/-- The list after an event, with draws of `n`. -/
def after (n : Nat) (l : List α) : Event α → List α
  | .birth a => a :: l
  | .leave a => l.erase a
  | .draw skip => turn skip n l

/-- The elements that the draws of a history take, oldest draw first. -/
def drawn (n : Nat) : List α → List (Event α) → List (List α)
  | _, [] => []
  | l, .draw skip :: es => (draw skip n l).1 :: drawn n (after n l (.draw skip)) es
  | l, .birth a :: es => drawn n (after n l (.birth a)) es
  | l, .leave a :: es => drawn n (after n l (.leave a)) es

def births : List (Event α) → Nat
  | [] => 0
  | .birth _ :: es => births es + 1
  | .leave _ :: es | .draw _ :: es => births es

def draws : List (Event α) → Nat
  | [] => 0
  | .draw _ :: es => draws es + 1
  | .leave _ :: es | .birth _ :: es => draws es

/-- `x` does not leave, and no draw skips it. -/
def Stays (x : α) (es : List (Event α)) : Prop :=
  ∀ e ∈ es, e ≠ .leave x ∧ ∀ skip, e = .draw skip → skip x = false

section Ahead

variable {skip : α → Bool} {n : Nat} {l : List α} {x : α}

/-- An element that a draw may take and does not moves up by as many places as the draw takes. -/
theorem idxOf_turn (hx : x ∈ l) (hskip : skip x = false) (hmiss : x ∉ (draw skip n l).1) :
    (turn skip n l).idxOf x + n ≤ l.idxOf x := by
  have happend := draw_append skip n l
  -- it is behind what the draw went past
  have hpassed : x ∉ (draw skip n l).2.1 := by
    intro hp
    rw [draw_taken skip] at hmiss
    exact hmiss (List.mem_filter.mpr ⟨hp, by simp [hskip]⟩)
  have hrest : x ∈ (draw skip n l).2.2 := by
    rw [← happend] at hx
    exact (List.mem_append.mp hx).resolve_left hpassed
  have hfull : n ≤ (draw skip n l).2.1.length := by
    have hle : (draw skip n l).1.length ≤ (draw skip n l).2.1.length := by
      rw [draw_taken skip]
      exact List.length_filter_le _ _
    by_contra hlt
    rw [draw_rest skip n l (by omega)] at hrest
    cases hrest
  have hidx : l.idxOf x = (draw skip n l).2.1.length + (draw skip n l).2.2.idxOf x := by
    conv_lhs => rw [← happend]
    rw [List.idxOf_append_of_notMem hpassed]
  rw [turn, List.idxOf_append_of_mem hrest, hidx]
  omega

theorem idxOf_erase_le {a : α} (hne : a ≠ x) : (l.erase a).idxOf x ≤ l.idxOf x := by
  induction l with
  | nil => exact le_refl _
  | cons b l ih =>
    by_cases hb : b = a
    · subst hb
      rw [List.erase_cons_head, List.idxOf_cons_ne l hne]
      exact Nat.le_succ _
    · rw [List.erase_cons_tail (by simpa using hb)]
      by_cases hbx : b = x
      · subst hbx
        rw [List.idxOf_cons_self, List.idxOf_cons_self]
      · rw [List.idxOf_cons_ne _ hbx, List.idxOf_cons_ne _ hbx]
        exact Nat.succ_le_succ ih

end Ahead

/-- **Nothing waits behind the window for ever**: an element that stays is taken by some draw as
soon as the draws, `n` elements each, outnumber what was ahead of it and what came in. -/
theorem drawn_of_stays {n : Nat} {x : α} : ∀ (es : List (Event α)) {l : List α}, x ∈ l →
    Stays x es → l.idxOf x + births es < n * draws es → ∃ taken ∈ drawn n l es, x ∈ taken := by
  intro es
  induction es with
  | nil =>
    intro l _ _ hcount
    exact absurd hcount (Nat.not_lt_zero _)
  | cons e es ih =>
    intro l hx hstays hcount
    obtain ⟨⟨hleave, hskip⟩, hstays'⟩ := List.forall_mem_cons.mp hstays
    cases e with
    | birth a =>
      have hle : (a :: l).idxOf x ≤ l.idxOf x + 1 := by
        by_cases ha : a = x
        · subst ha
          rw [List.idxOf_cons_self]
          exact Nat.zero_le _
        · rw [List.idxOf_cons_ne l ha]
      refine ih (l := a :: l) (List.mem_cons_of_mem a hx) hstays' ?_
      simp only [births, draws] at hcount
      omega
    | leave a =>
      have hne : a ≠ x := fun h => hleave (congrArg Event.leave h)
      have hle := idxOf_erase_le (l := l) hne
      refine ih (l := l.erase a) ((List.mem_erase_of_ne (Ne.symm hne)).mpr hx) hstays' ?_
      simp only [births, draws] at hcount
      omega
    | draw skip =>
      by_cases htaken : x ∈ (draw skip n l).1
      · exact ⟨_, List.mem_cons_self, htaken⟩
      · have hle := idxOf_turn hx (hskip skip rfl) htaken
        simp only [births, draws, Nat.mul_succ] at hcount
        obtain ⟨taken, hmem, hx'⟩ :=
          ih (l := turn skip n l) ((mem_turn skip n l x).mpr hx) hstays' (by omega)
        exact ⟨taken, List.mem_cons_of_mem _ hmem, hx'⟩

end Window
