import Mathlib.Data.List.Basic
import Mathlib.Tactic.Ring

/-!
Byte buffers: little-endian words read at an offset, and sizes rounded up to an
alignment.
-/

namespace Bytes

/-- The low `n` bytes of a number, least significant first. -/
def le : Nat → Nat → List UInt8
  | 0, _ => []
  | n + 1, v => UInt8.ofNat v :: le n (v / 256)

def leValue : List UInt8 → Nat
  | [] => 0
  | b :: bs => b.toNat + 256 * leValue bs

/-- The `n`-byte word at an offset. -/
def word (n : Nat) (src : List UInt8) (off : Nat) : Nat := leValue ((src.drop off).take n)

/-- The same, if the buffer has these bytes. -/
def word? (n : Nat) (src : List UInt8) (off : Nat) : Option Nat :=
  if off + n ≤ src.length then some (word n src off) else none

def slice (src : List UInt8) (off n : Nat) : List UInt8 := (src.drop off).take n

/-- A copy of no bytes reads none. -/
def slice? (src : List UInt8) (off n : Nat) : Option (List UInt8) :=
  if n = 0 ∨ off + n ≤ src.length then some (slice src off n) else none

/-- `(n + a - 1) & ~(a - 1)`, for a power of two. -/
def alignUp (a n : Nat) : Nat := (n + a - 1) / a * a

@[simp] theorem le_length (n v : Nat) : (le n v).length = n := by
  induction n generalizing v with
  | zero => rfl
  | succ n ih => simp [le, ih]

theorem leValue_le (n v : Nat) : leValue (le n v) = v % 256 ^ n := by
  induction n generalizing v with
  | zero => simp [le, leValue, Nat.mod_one]
  | succ n ih =>
    have hbyte : (UInt8.ofNat v).toNat = v % 256 := by simp
    rw [le, leValue, ih, hbyte, Nat.pow_succ, Nat.mul_comm (256 ^ n) 256, Nat.mod_mul]

theorem le_add (a b v : Nat) : le (a + b) v = le a v ++ le b (v / 256 ^ a) := by
  induction a generalizing v with
  | zero => simp [le]
  | succ a ih =>
    rw [show a + 1 + b = (a + b) + 1 by omega, le, ih, le, List.cons_append, Nat.div_div_eq_div_mul,
      Nat.pow_succ, Nat.mul_comm (256 ^ a)]

theorem leValue_append (xs ys : List UInt8) :
    leValue (xs ++ ys) = leValue xs + 256 ^ xs.length * leValue ys := by
  induction xs with
  | nil => simp [leValue]
  | cons x xs ih =>
    simp only [List.cons_append, leValue, ih, List.length_cons, Nat.pow_succ]
    ring

theorem slice_length (src : List UInt8) (off n : Nat) :
    (slice src off n).length = min n (src.length - off) := by
  simp [slice]

/-- What a word reads where a given word was laid down. -/
theorem word_at {n off : Nat} (pre w rest : List UInt8) (hw : w.length = n)
    (ho : off = pre.length) : word n (pre ++ (w ++ rest)) off = leValue w := by
  subst hw ho
  simp [word]

theorem slice_at {n off : Nat} (pre w rest : List UInt8) (hw : w.length = n)
    (ho : off = pre.length) : slice (pre ++ (w ++ rest)) off n = w := by
  subst hw ho
  simp [slice]

/-! ## Reading from a part of a buffer -/

section Part

variable {n off m : Nat} {src : List UInt8}

theorem word?_eq (h : off + n ≤ src.length) : word? n src off = some (word n src off) := if_pos h

theorem slice_take (h : off + n ≤ m) : slice (src.take m) off n = slice src off n := by
  rw [slice, List.drop_take, List.take_take, Nat.min_eq_left (by omega), slice]

theorem inside_take (h : off + n ≤ m) : off + n ≤ (src.take m).length ↔ off + n ≤ src.length := by
  rw [List.length_take]
  omega

theorem word?_take (h : off + n ≤ m) : word? n (src.take m) off = word? n src off := by
  have hword : word n (src.take m) off = word n src off := congrArg leValue (slice_take h)
  simp only [word?, inside_take h, hword]

theorem slice?_take (h : n = 0 ∨ off + n ≤ m) : slice? (src.take m) off n = slice? src off n := by
  rcases h with rfl | h
  · simp [slice?, slice]
  · simp only [slice?, inside_take h, slice_take h]

/-- Where there is a result, the other is the same. -/
def Under {α : Type*} (x y : Option α) : Prop := ∀ a, x = some a → y = some a

theorem Under.refl {α : Type*} (x : Option α) : Under x x := fun _ h => h

theorem Under.bind {α β : Type*} {x y : Option α} {f g : α → Option β} (h : Under x y)
    (hf : ∀ a, Under (f a) (g a)) : Under (x.bind f) (y.bind g) := by
  intro b hb
  obtain ⟨a, ha, hb⟩ := Option.bind_eq_some_iff.mp hb
  rw [h a ha]
  exact hf a b hb

theorem Under.map {α β : Type*} {x y : Option α} (h : Under x y) (f : α → β) :
    Under (x.map f) (y.map f) := by
  intro b hb
  obtain ⟨a, ha, rfl⟩ := Option.map_eq_some_iff.mp hb
  rw [h a ha]
  rfl

theorem Under.eq {α : Type*} {x y : Option α} (h : Under x y) (hx : x ≠ none) : x = y := by
  obtain ⟨a, ha⟩ := Option.ne_none_iff_exists'.mp hx
  rw [ha, h a ha]

theorem word?_under (n : Nat) (src : List UInt8) (off m : Nat) :
    Under (word? n (src.take m) off) (word? n src off) := by
  intro v hv
  rw [← hv]
  refine (word?_take ?_).symm
  rw [word?, List.length_take] at hv
  split at hv
  · omega
  · cases hv

theorem slice?_under (src : List UInt8) (off n m : Nat) :
    Under (slice? (src.take m) off n) (slice? src off n) := by
  intro v hv
  rw [← hv]
  refine (slice?_take ?_).symm
  rw [slice?, List.length_take] at hv
  split at hv
  · omega
  · cases hv

theorem byte_under (src : List UInt8) (i m : Nat) : Under (src.take m)[i]? src[i]? := by
  intro c hc
  rw [List.getElem?_take] at hc
  split at hc
  · exact hc
  · cases hc

end Part

end Bytes
