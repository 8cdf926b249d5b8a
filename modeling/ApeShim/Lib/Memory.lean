import Mathlib.Data.List.Basic
import Mathlib.Logic.Function.Basic

/-!
Memory as a function from addresses: stretches of cells that are read (`view`) and
written in order (`blit`, which is `memcpy`).
-/

namespace Memory

variable {α : Type*}

/-- The `n` cells from an address on. -/
def view (m : Nat → α) (a n : Nat) : List α := (List.range n).map fun i => m (a + i)

/-- The cells from an address on become those of a list. -/
def blit (m : Nat → α) (a : Nat) : List α → Nat → α
  | [] => m
  | c :: s => blit (Function.update m a c) (a + 1) s

/-- `memmove`: the cells are read before any is written. -/
def move (m : Nat → α) (dst src n : Nat) : Nat → α := blit m dst (view m src n)

variable {m : Nat → α} {a n : Nat}

@[simp] theorem view_length : (view m a n).length = n := by simp [view]

@[simp] theorem view_zero : view m a 0 = [] := rfl

theorem view_add (k : Nat) : view m a (n + k) = view m a n ++ view m (a + n) k := by
  simp only [view, List.range_add, List.map_append, List.map_map]
  refine congrArg₂ _ rfl (List.map_congr_left fun i _ => ?_)
  rw [Function.comp_apply, Nat.add_assoc]

theorem view_succ : view m a (n + 1) = view m a n ++ [m (a + n)] := view_add 1

theorem view_cons : view m a (n + 1) = m a :: view m (a + 1) n := by
  rw [Nat.add_comm, view_add, view_succ, view_zero]
  rfl

/-- Where a stretch of cells is known, so are its parts. -/
theorem of_view_eq {u w : List α} {x : α} (h : view m a n = u ++ x :: w) :
    view m a u.length = u ∧ m (a + u.length) = x ∧ view m (a + u.length + 1) w.length = w ∧
      n = u.length + (w.length + 1) := by
  have hn : n = u.length + (w.length + 1) := by
    have := congrArg List.length h
    rwa [view_length, List.length_append, List.length_cons] at this
  rw [hn, view_add, view_cons] at h
  obtain ⟨hu, hrest⟩ := List.append_inj h view_length
  obtain ⟨hx, hw⟩ := List.cons.inj hrest
  exact ⟨hu, hx, hw, hn⟩

theorem view_congr {m' : Nat → α} (h : ∀ i, a ≤ i → i < a + n → m' i = m i) :
    view m' a n = view m a n := by
  refine List.map_congr_left fun i hi => ?_
  have := List.mem_range.mp hi
  exact h _ (by omega) (by omega)

/-- What is put behind a stretch of cells leaves it. -/
theorem view_update_end (c : α) : view (Function.update m (a + n) c) a n = view m a n :=
  view_congr fun _ _ hi => Function.update_of_ne (by omega) ..

theorem blit_of_lt {s : List α} {i : Nat} (h : i < a) : blit m a s i = m i := by
  induction s generalizing m a with
  | nil => rfl
  | cons c s ih => rw [blit, ih (by omega), Function.update_of_ne (by omega)]

theorem blit_of_ge {s : List α} {i : Nat} (h : a + s.length ≤ i) : blit m a s i = m i := by
  induction s generalizing m a with
  | nil => rfl
  | cons c s ih =>
    rw [List.length_cons] at h
    rw [blit, ih (by omega), Function.update_of_ne (by omega)]

/-- What was copied can be read where it was put. -/
theorem view_blit (s : List α) : view (blit m a s) a s.length = s := by
  induction s generalizing m a with
  | nil => rfl
  | cons c s ih =>
    have hhead : blit m a (c :: s) a = c := by
      rw [blit, blit_of_lt (by omega), Function.update_self]
    rw [List.length_cons, Nat.add_comm, view_add, view_succ, view_zero, Nat.add_zero, hhead, blit, ih]
    rfl

/-- A copy leaves what stands before it. -/
theorem view_blit_before {s : List α} {b : Nat} (h : b + n ≤ a) :
    view (blit m a s) b n = view m b n :=
  view_congr fun _ _ hi => blit_of_lt (by omega)

/-- A copy leaves what stands behind it. -/
theorem view_blit_after {s : List α} {b : Nat} (h : a + s.length ≤ b) :
    view (blit m a s) b n = view m b n :=
  view_congr fun _ hi _ => blit_of_ge (by omega)

/-- A copy behind what was read continues it. -/
theorem view_blit_append (s : List α) : view (blit m (a + n) s) a (n + s.length) = view m a n ++ s := by
  rw [view_add, view_blit_before (Nat.le_refl _), view_blit]

/-! ## Scattered writes -/

section Scattered

variable {ι κ β : Type*} [DecidableEq κ]

/-- Cells written one after the other, each where its name says, if anywhere. -/
def puts (key : ι → Option κ) (val : ι → β) (ns : List ι) (f : κ → β) : κ → β :=
  ns.foldl (fun f n => (key n).elim f fun i => Function.update f i (val n)) f

variable {key : ι → Option κ} {val : ι → β} {ns : List ι} {f : κ → β} {i : κ}

theorem puts_other (h : ∀ n ∈ ns, key n ≠ some i) : puts key val ns f i = f i := by
  induction ns generalizing f with
  | nil => rfl
  | cons n ns ih =>
    rw [List.forall_mem_cons] at h
    rw [puts, List.foldl_cons, ← puts, ih h.2]
    cases hk : key n with
    | none => rfl
    | some j =>
      have hne : i ≠ j := by
        rintro rfl
        exact h.1 hk
      exact Function.update_of_ne hne _ _

/-- A cell that one name alone is written to. -/
theorem puts_key {n : ι} (hn : n ∈ ns) (hk : key n = some i)
    (h : ∀ m ∈ ns, key m = some i → m = n) : puts key val ns f i = val n := by
  induction ns generalizing f with
  | nil => cases hn
  | cons m ns ih =>
    rw [List.forall_mem_cons] at h
    rw [puts, List.foldl_cons, ← puts]
    by_cases hin : n ∈ ns
    · exact ih hin h.2
    · obtain rfl := (List.mem_cons.mp hn).resolve_right hin
      rw [puts_other fun m hm hkm => hin (h.2 m hm hkm ▸ hm), hk]
      exact Function.update_self _ _ _

/-- The last name that is written to a cell decides. -/
theorem puts_last : puts key val ns f i =
    (ns.filter fun n => key n = some i).getLast?.elim (f i) val := by
  induction ns generalizing f with
  | nil => rfl
  | cons n ns ih =>
    rw [puts, List.foldl_cons, ← puts, ih]
    by_cases hk : key n = some i
    · rw [List.filter_cons_of_pos (by simpa using hk), List.getLast?_cons, hk]
      cases (ns.filter fun n => key n = some i).getLast? with
      | none => exact Function.update_self _ _ _
      | some m => rfl
    · rw [List.filter_cons_of_neg (by simpa using hk)]
      congr 1
      cases hkey : key n with
      | none => rfl
      | some j =>
        have hne : i ≠ j := by
          rintro rfl
          exact hk hkey
        exact Function.update_of_ne hne _ _

end Scattered

end Memory
