import Mathlib.Data.List.TakeWhile

/-!
C strings in a buffer that ends. A pointer is the list of the bytes from it to the end of the
buffer; a function that reads past them has no result.
-/

namespace CString

/-- `strlen` -/
def strlen : List UInt8 → Option Nat
  | [] => none
  | c :: s => if c = 0 then some 0 else (strlen s).map (· + 1)

/-- `strchr`: the string from the first `x` on. -/
def strchr (x : UInt8) : List UInt8 → Option (Option (List UInt8))
  | [] => none
  | c :: s => if c = x then some (some (c :: s)) else if c = 0 then some none else strchr x s

/-- `memchr`: how many bytes stand before the first `x` among `n`. -/
def memchr (x : UInt8) : Nat → List UInt8 → Option (Option Nat)
  | 0, _ => some none
  | _ + 1, [] => none
  | n + 1, c :: s => if c = x then some (some 0) else (memchr x n s).map (Option.map (· + 1))

/-- `strrchr`: the string from the last `x` on. It reads up to the NUL. -/
def strrchr (x : UInt8) : List UInt8 → Option (Option (List UInt8))
  | [] => none
  | c :: s =>
    if c = 0 then some none
    else (strrchr x s).map fun r => r <|> if c = x then some (c :: s) else none

/-- `strcmp`, compared with 0; the second string is a literal without its NUL. -/
def strcmp : List UInt8 → List UInt8 → Option Bool
  | [], _ => none
  | c :: _, [] => some (c = 0)
  | c :: s, x :: lit => if c = x then strcmp s lit else some false

/-- The string at a pointer. -/
def text (s : List UInt8) : List UInt8 := s.takeWhile (· ≠ 0)

/-- The pointer behind the string at a pointer and its NUL; the end of the buffer where there is
none. -/
def next (s : List UInt8) : List UInt8 := s.drop ((text s).length + 1)

/-- Strings one after the other, each with its NUL. -/
def joined (ss : List (List UInt8)) : List UInt8 := ss.flatMap (· ++ [0])

variable {x : UInt8} {s t : List UInt8}

theorem zero_notMem_text (s : List UInt8) : 0 ∉ text s := fun h => by
  simpa using List.all_eq_true.mp (List.all_takeWhile (l := s)) 0 h

theorem text_append (h : 0 ∉ s) : text (s ++ t) = s ++ text t := by
  rw [text, List.takeWhile_append_of_pos]
  · rfl
  · intro c hc
    have hne : c ≠ 0 := by
      rintro rfl
      exact h hc
    simpa using hne

theorem text_cons (h : x ≠ 0) : text (x :: s) = x :: text s :=
  List.takeWhile_cons_of_pos (by simpa using h)

/-- A NUL behind the string changes nothing. -/
theorem text_append_zero (s t : List UInt8) : text (s ++ 0 :: t) = text s := by
  induction s with
  | nil => rfl
  | cons c s ih =>
    by_cases hc : c = 0
    · subst hc
      rfl
    · rw [List.cons_append, text_cons hc, text_cons hc, ih]

/-- Up to the first NUL, everything is the string. -/
theorem exists_text (h : 0 ∈ s) : ∃ t, s = text s ++ 0 :: t := by
  induction s with
  | nil => cases h
  | cons c s ih =>
    by_cases hc : c = 0
    · subst hc
      exact ⟨s, rfl⟩
    · obtain ⟨t, ht⟩ := ih ((List.mem_cons.mp h).resolve_left (Ne.symm hc))
      refine ⟨t, ?_⟩
      rw [text, List.takeWhile_cons_of_pos (by simpa using hc), List.cons_append, ← text, ← ht]

theorem strlen_append (h : 0 ∉ s) : strlen (s ++ 0 :: t) = some s.length := by
  induction s with
  | nil => rfl
  | cons c s ih =>
    obtain ⟨hc, hs⟩ := List.ne_and_not_mem_of_not_mem_cons h
    rw [List.cons_append, strlen, if_neg hc.symm, ih hs]
    rfl

theorem strchr_append (hx : x ≠ 0) (h : 0 ∉ s) : strchr x (s ++ 0 :: t) =
    some (if x ∈ s then some (s.dropWhile (· ≠ x) ++ 0 :: t) else none) := by
  induction s with
  | nil => simp [strchr, hx.symm]
  | cons c s ih =>
    obtain ⟨hc, hs⟩ := List.ne_and_not_mem_of_not_mem_cons h
    rw [List.cons_append, strchr]
    by_cases hcx : c = x
    · subst hcx
      simp
    · rw [if_neg hcx, if_neg hc.symm, ih hs]
      simp [hcx, Ne.symm hcx]

theorem memchr_append (h : x ∉ s) (n : Nat) :
    memchr x (s.length + 1 + n) (s ++ x :: t) = some (some s.length) := by
  induction s with
  | nil => rw [Nat.add_comm]; simp [memchr]
  | cons c s ih =>
    obtain ⟨hc, hs⟩ := List.ne_and_not_mem_of_not_mem_cons h
    rw [List.length_cons, Nat.add_right_comm, List.cons_append, memchr, if_neg hc.symm, ih hs]
    rfl

theorem memchr_none (h : x ∉ s) : memchr x s.length (s ++ t) = some none := by
  induction s with
  | nil => rfl
  | cons c s ih =>
    obtain ⟨hc, hs⟩ := List.ne_and_not_mem_of_not_mem_cons h
    rw [List.length_cons, List.cons_append, memchr, if_neg hc.symm, ih hs]
    rfl

theorem memchr_lt {n k : Nat} (h : memchr x n s = some (some k)) : k < n := by
  induction n generalizing s k with
  | zero => cases h
  | succ n ih =>
    cases s with
    | nil => cases h
    | cons c s =>
      rw [memchr] at h
      split at h
      · cases h
        exact Nat.succ_pos n
      · obtain ⟨o, ho, hk⟩ := Option.map_eq_some_iff.mp h
        obtain ⟨j, rfl, rfl⟩ := Option.map_eq_some_iff.mp hk
        exact Nat.succ_lt_succ (ih ho)

theorem strlen_none (h : 0 ∉ s) : strlen s = none := by
  induction s with
  | nil => rfl
  | cons c s ih =>
    obtain ⟨hc, hs⟩ := List.ne_and_not_mem_of_not_mem_cons h
    rw [strlen, if_neg hc.symm, ih hs]
    rfl

theorem strrchr_none (h : 0 ∉ s) : strrchr x s = none := by
  induction s with
  | nil => rfl
  | cons c s ih =>
    obtain ⟨hc, hs⟩ := List.ne_and_not_mem_of_not_mem_cons h
    rw [strrchr, if_neg hc.symm, ih hs]
    rfl

/-- The rest of a list from the last `x` on. -/
def lastFrom (x : UInt8) : List UInt8 → Option (List UInt8)
  | [] => none
  | c :: s => lastFrom x s <|> if c = x then some (c :: s) else none

theorem strrchr_append (h : 0 ∉ s) (t : List UInt8) :
    strrchr x (s ++ 0 :: t) = some ((lastFrom x s).map (· ++ 0 :: t)) := by
  induction s with
  | nil => rfl
  | cons c s ih =>
    obtain ⟨hc, hs⟩ := List.ne_and_not_mem_of_not_mem_cons h
    rw [List.cons_append, strrchr, if_neg hc.symm, ih hs, lastFrom]
    cases lastFrom x s with
    | some r => rfl
    | none => by_cases hcx : c = x <;> simp [hcx]

theorem lastFrom_suffix {r : List UInt8} (h : lastFrom x s = some r) : r ≠ [] ∧ r <:+ s := by
  induction s with
  | nil => cases h
  | cons c s ih =>
    rw [lastFrom] at h
    cases hl : lastFrom x s with
    | some r' =>
      rw [hl] at h
      cases h
      exact ⟨(ih hl).1, (ih hl).2.trans (List.suffix_cons c s)⟩
    | none =>
      rw [hl] at h
      by_cases hcx : c = x
      · simp only [hcx, if_true] at h
        cases h
        rw [hcx]
        exact ⟨List.cons_ne_nil _ _, List.suffix_rfl⟩
      · simp [hcx] at h

theorem strcmp_append {lit : List UInt8} (h : 0 ∉ s) (hlit : 0 ∉ lit) (t : List UInt8) :
    strcmp (s ++ 0 :: t) lit = some (decide (s = lit)) := by
  induction s generalizing lit with
  | nil =>
    cases lit with
    | nil => rfl
    | cons x lit =>
      have hx : (0 : UInt8) ≠ x := (List.ne_and_not_mem_of_not_mem_cons hlit).1
      simp [strcmp, hx]
  | cons c s ih =>
    obtain ⟨hc, hs⟩ := List.ne_and_not_mem_of_not_mem_cons h
    cases lit with
    | nil => simp [strcmp, hc.symm]
    | cons x lit =>
      rw [List.cons_append, strcmp, ih hs (List.ne_and_not_mem_of_not_mem_cons hlit).2]
      by_cases hcx : c = x <;> simp [hcx]

theorem next_append (h : 0 ∉ s) (t : List UInt8) : next (s ++ 0 :: t) = t := by
  have htext : text (s ++ 0 :: t) = s := by rw [text_append h]; exact List.append_nil s
  rw [next, htext, ← List.drop_drop, List.drop_left]
  rfl

theorem joined_cons (s : List UInt8) (ss : List (List UInt8)) :
    joined (s :: ss) = s ++ 0 :: joined ss := by simp [joined]

@[simp] theorem joined_nil : joined [] = [] := rfl

theorem joined_append (ss ts : List (List UInt8)) : joined (ss ++ ts) = joined ss ++ joined ts :=
  List.flatMap_append

/-- Every string has one NUL. -/
theorem count_joined {ss : List (List UInt8)} (h : ∀ s ∈ ss, 0 ∉ s) :
    (joined ss).count 0 = ss.length := by
  induction ss with
  | nil => rfl
  | cons s ss ih =>
    rw [List.forall_mem_cons] at h
    rw [joined_cons, List.count_append, List.count_cons_self, ih h.2, List.count_eq_zero.mpr h.1,
      List.length_cons, Nat.zero_add]

end CString
