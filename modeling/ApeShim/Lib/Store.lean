import ApeShim.Lib.CString

/-!
Stores into a buffer of fixed size. A store that would run past its end has no result; one that
ends in a NUL leaves a string, and a later one may replace what follows a part of it.
-/

namespace Store
open CString

/-- `memcpy(buf + off, s, n)` for the `n` elements of `s`. -/
def store {α : Type*} (buf : List α) (off : Nat) (s : List α) : Option (List α) :=
  if off + s.length ≤ buf.length then
    some (buf.take off ++ (s ++ buf.drop (off + s.length)))
  else none

/-- The buffer holds `s` and its NUL. -/
def Holds (buf s : List UInt8) : Prop := 0 ∉ s ∧ ∃ t, buf = s ++ 0 :: t

variable {buf s u : List UInt8}

theorem Holds.clean (h : Holds buf s) : 0 ∉ s := h.1

theorem Holds.text (h : Holds buf s) : text buf = s := by
  obtain ⟨hs, t, rfl⟩ := h
  rw [text_append hs]
  exact List.append_nil s

theorem store_length {α : Type*} {buf s b : List α} {off : Nat} (h : store buf off s = some b) :
    b.length = buf.length := by
  rw [store] at h
  by_cases hroom : off + s.length ≤ buf.length
  · rw [if_pos hroom] at h
    cases h
    simp only [List.length_append, List.length_take, List.length_drop]
    omega
  · rw [if_neg hroom] at h
    cases h

/-- What is stored behind a part of the buffer follows it. -/
theorem store_after {α : Type*} {buf u : List α} (s : List α) (h : u <+: buf)
    (hroom : u.length + s.length ≤ buf.length) :
    ∃ b, store buf u.length s = some b ∧ u ++ s <+: b ∧ b.length = buf.length := by
  have hstore : store buf u.length s =
      some (buf.take u.length ++ (s ++ buf.drop (u.length + s.length))) := if_pos hroom
  refine ⟨_, hstore, ?_, store_length hstore⟩
  rw [List.prefix_iff_eq_take.mp h |>.symm, ← List.append_assoc]
  exact List.prefix_append _ _

/-- Stored with a NUL behind it, the text of `s` completes a string. -/
theorem store_text (s : List UInt8) (h : u <+: buf) (hu : 0 ∉ u)
    (hroom : u.length + s.length < buf.length) :
    ∃ b, store buf u.length (s ++ [0]) = some b ∧ Holds b (u ++ text s) ∧ b.length = buf.length := by
  have hlen : (s ++ [0]).length = s.length + 1 := List.length_append
  obtain ⟨b, hb, ⟨t, ht⟩, hlen⟩ := store_after (s ++ [0]) h (by omega)
  have hmem : 0 ∈ s ++ [0] := List.mem_append_right _ List.mem_cons_self
  obtain ⟨t', ht'⟩ := exists_text hmem
  rw [text_append_zero] at ht'
  refine ⟨b, hb, ⟨?_, t' ++ t, ?_⟩, hlen⟩
  · rw [List.mem_append, not_or]
    exact ⟨hu, zero_notMem_text s⟩
  · rw [← ht, ht']
    simp only [List.append_assoc, List.cons_append]

theorem store_string (s : List UInt8) (h : u <+: buf) (hu : 0 ∉ u) (hs : 0 ∉ s)
    (hroom : u.length + s.length < buf.length) :
    ∃ b, store buf u.length (s ++ [0]) = some b ∧ Holds b (u ++ s) ∧ b.length = buf.length := by
  have htext : text s = s := by
    rw [← text_append_zero s [], text_append hs]
    exact List.append_nil s
  have hstore := store_text s h hu hroom
  rwa [htext] at hstore

theorem Holds.prefix (h : Holds buf s) : s <+: buf := by
  obtain ⟨-, t, rfl⟩ := h
  exact List.prefix_append _ _

end Store
