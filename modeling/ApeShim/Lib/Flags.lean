import Mathlib.Data.BitVec

/-!
Words read as sets of flags: `has x m` is C's `x & m` used as a condition. The
`simp` set below pushes `has` through `|`, through clearing with `& ~m`, and
through the `if (..) e |= m` chains by which C translates one set of flags
into another.
-/

namespace Flags

variable {w : Nat}

/-- `x & m`, as a condition. -/
def has (x m : BitVec w) : Bool := x &&& m != 0#w

/-- `if (b) e |= m`. -/
def raise (b : Bool) (m e : BitVec w) : BitVec w := if b then e ||| m else e

theorem has_iff {x m : BitVec w} : has x m = true ↔ ∃ i, x.getLsbD i ∧ m.getLsbD i := by
  simp only [has, bne_iff_ne, ne_eq]
  constructor
  · intro h
    by_contra hn
    simp only [not_exists, not_and, Bool.not_eq_true] at hn
    refine h (BitVec.eq_of_getLsbD_eq fun i _ => ?_)
    rw [BitVec.getLsbD_and, BitVec.getLsbD_zero]
    cases hx : x.getLsbD i with
    | false => rfl
    | true => rw [hn i hx, Bool.and_false]
  · rintro ⟨i, hx, hm⟩ h
    have hi := congrArg (fun v => v.getLsbD i) h
    rw [BitVec.getLsbD_and, hx, hm, BitVec.getLsbD_zero] at hi
    exact Bool.false_ne_true hi.symm

theorem has_eq_false_iff {x m : BitVec w} :
    has x m = false ↔ ∀ i, x.getLsbD i → m.getLsbD i = false := by
  rw [← Bool.not_eq_true, has_iff]
  simp

@[simp] theorem has_zero_left (m : BitVec w) : has 0#w m = false := by simp [has]

theorem has_comm (x m : BitVec w) : has x m = has m x := by simp [has, BitVec.and_comm]

@[simp] theorem has_or_left (x y m : BitVec w) : has (x ||| y) m = (has x m || has y m) := by
  rw [Bool.eq_iff_iff]
  simp only [Bool.or_eq_true, has_iff, BitVec.getLsbD_or]
  constructor
  · rintro ⟨i, hx | hy, hm⟩
    · exact Or.inl ⟨i, hx, hm⟩
    · exact Or.inr ⟨i, hy, hm⟩
  · rintro (⟨i, hx, hm⟩ | ⟨i, hy, hm⟩)
    · exact ⟨i, Or.inl hx, hm⟩
    · exact ⟨i, Or.inr hy, hm⟩

@[simp] theorem has_raise (b : Bool) (m e n : BitVec w) :
    has (raise b m e) n = (has e n || (b && has m n)) := by
  cases b <;> simp [raise]

/-- Clearing the flags `m` leaves every flag that is not among them. -/
theorem has_clear (x m n : BitVec w) (h : has m n = false) : has (x &&& ~~~m) n = has x n := by
  rw [Bool.eq_iff_iff]
  simp only [has_iff, BitVec.getLsbD_and, BitVec.getLsbD_not, Bool.and_eq_true,
    Bool.not_eq_eq_eq_not, Bool.not_true, decide_eq_true_eq]
  constructor
  · rintro ⟨i, ⟨hx, -⟩, hn⟩
    exact ⟨i, hx, hn⟩
  · rintro ⟨i, hx, hn⟩
    have hm := has_eq_false_iff.mp (has_comm m n ▸ h) i hn
    exact ⟨i, ⟨hx, BitVec.lt_of_getLsbD hx, hm⟩, hn⟩

/-- Every flag of `x` is a flag of `m`. -/
def within (x m : BitVec w) : Bool := x &&& ~~~m == 0#w

theorem within_iff {x m : BitVec w} :
    within x m = true ↔ ∀ i, x.getLsbD i = true → m.getLsbD i = true := by
  rw [within, beq_iff_eq]
  constructor
  · intro h i hx
    have hi := congrArg (fun v => v.getLsbD i) h
    rw [BitVec.getLsbD_and, hx, BitVec.getLsbD_not, decide_eq_true (BitVec.lt_of_getLsbD hx),
      Bool.true_and, Bool.true_and, BitVec.getLsbD_zero] at hi
    exact (Bool.not_eq_false' _).mp hi
  · intro h
    refine BitVec.eq_of_getLsbD_eq fun i _ => ?_
    rw [BitVec.getLsbD_and, BitVec.getLsbD_not, BitVec.getLsbD_zero]
    cases hx : x.getLsbD i with
    | false => rfl
    | true => rw [h i hx, Bool.not_true, Bool.and_false, Bool.and_false]

theorem within_iff_and {x m : BitVec w} : within x m = true ↔ x &&& m = x := by
  rw [within_iff]
  constructor
  · intro h
    refine BitVec.eq_of_getLsbD_eq fun i _ => ?_
    rw [BitVec.getLsbD_and]
    cases hx : x.getLsbD i with
    | false => rfl
    | true => rw [h i hx]; rfl
  · intro h i hi
    rw [← h, BitVec.getLsbD_and, Bool.and_eq_true] at hi
    exact hi.2

theorem has_eq_false_iff_and {x m : BitVec w} : has x m = false ↔ x &&& m = 0#w := by
  rw [has, bne_eq_false_iff_eq]

/-- And none of the flags `m`. -/
theorem has_cleared (x m : BitVec w) : has (x &&& ~~~m) m = false := by
  rw [has_eq_false_iff]
  intro i hi
  rw [BitVec.getLsbD_and, BitVec.getLsbD_not, Bool.and_eq_true, Bool.and_eq_true] at hi
  simpa using hi.2.2

/-- What shares nothing with a word shares nothing with a part of it. -/
theorem has_within {x y m : BitVec w} (h : has x m = false) (hy : within y m = true) :
    has x y = false := by
  rw [has_eq_false_iff] at h ⊢
  intro i hi
  by_contra hne
  rw [Bool.not_eq_false] at hne
  exact Bool.false_ne_true ((h i hi).symm.trans (within_iff.mp hy i hne))

@[simp] theorem within_refl (x : BitVec w) : within x x = true := by simp [within_iff]

theorem within_trans {x y z : BitVec w} (hxy : within x y = true) (hyz : within y z = true) :
    within x z = true :=
  within_iff.mpr fun i hi => within_iff.mp hyz i (within_iff.mp hxy i hi)

theorem within_or_of_left {x m n : BitVec w} (h : within x m = true) :
    within x (m ||| n) = true :=
  within_iff.mpr fun i hi => by simp [within_iff.mp h i hi]

theorem within_or_of_right {x m n : BitVec w} (h : within x n = true) :
    within x (m ||| n) = true :=
  within_iff.mpr fun i hi => by simp [within_iff.mp h i hi]

theorem within_or_mono {x y m : BitVec w} (h : within x y = true) :
    within (x ||| m) (y ||| m) = true := by
  rw [within_iff] at h ⊢
  intro i hi
  simp only [BitVec.getLsbD_or, Bool.or_eq_true] at hi ⊢
  exact hi.imp_left (h i)

theorem within_raise {b : Bool} {m e n : BitVec w} (he : within e n = true)
    (hm : b = true → within m n = true) : within (raise b m e) n = true := by
  cases b with
  | false => exact he
  | true =>
    rw [within_iff] at he ⊢
    intro i hi
    simp only [raise, ↓reduceIte, BitVec.getLsbD_or, Bool.or_eq_true] at hi
    exact hi.elim (he i) (within_iff.mp (hm rfl) i)

theorem raise_mono {b c : Bool} {m e e' : BitVec w} (hbc : b = true → c = true)
    (h : within e e' = true) : within (raise b m e) (raise c m e') = true := by
  cases b with
  | false => cases c with
    | false => exact h
    | true => exact within_or_of_left h
  | true =>
    rw [hbc rfl]
    exact within_or_mono h

theorem has_mono {x y m : BitVec w} (h : within x y = true) (hx : has x m = true) :
    has y m = true := by
  obtain ⟨i, hi, hm⟩ := has_iff.mp hx
  exact has_iff.mpr ⟨i, within_iff.mp h i hi, hm⟩

theorem within_and_right (x y : BitVec w) : within (x &&& y) y = true :=
  within_iff.mpr fun i hi => by simp_all

/-- A single flag that is hit is contained. -/
theorem within_of_has_twoPow {x : BitVec w} {i : Nat} (h : has x (BitVec.twoPow w i) = true) :
    within (BitVec.twoPow w i) x = true := by
  obtain ⟨j, hx, hj⟩ := has_iff.mp h
  simp only [BitVec.getLsbD_twoPow, Bool.and_eq_true, decide_eq_true_eq] at hj
  refine within_iff.mpr fun l hl => ?_
  simp only [BitVec.getLsbD_twoPow, Bool.and_eq_true, decide_eq_true_eq] at hl
  rw [← hl.2, hj.2]
  exact hx

theorem has_twoPow {x : BitVec w} {i : Nat} : has x (BitVec.twoPow w i) = true ↔ x.getLsbD i = true := by
  rw [has_iff]
  simp only [BitVec.getLsbD_twoPow, Bool.and_eq_true, decide_eq_true_eq]
  constructor
  · rintro ⟨j, hx, _, rfl⟩
    exact hx
  · intro hx
    exact ⟨i, hx, BitVec.lt_of_getLsbD hx, rfl⟩

end Flags
