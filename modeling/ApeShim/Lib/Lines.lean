import ApeShim.Lib.Decimal

/-!
Text in lines: numbers in base ten and sixteen that are filled up to a width, lines that a newline
ends, fields with one blank between them, and how all these are taken apart again.
-/

namespace Lines
open Decimal

/-! ## Filling up -/

/-- `%*s`, and `%0*x` with `'0'`. -/
def padLeft (c : Char) (width : Nat) (s : List Char) : List Char :=
  List.replicate (width - s.length) c ++ s

def blank (c : Char) : Bool := c == ' ' || c == '\t'

theorem dropWhile_padLeft (width : Nat) (s rest : List Char) :
    (padLeft ' ' width s ++ rest).dropWhile blank = (s ++ rest).dropWhile blank := by
  have hfill : ∀ c ∈ List.replicate (width - s.length) ' ', blank c = true := by
    intro c hc
    rw [List.eq_of_mem_replicate hc]
    rfl
  rw [padLeft, List.append_assoc, List.dropWhile_append_of_pos hfill]

theorem dropWhile_text (n : Int) (rest : List Char) :
    (text n ++ rest).dropWhile blank = text n ++ rest := by
  cases htext : text n with
  | nil => exact absurd htext (text_ne_nil n)
  | cons c s =>
      refine List.dropWhile_cons_of_neg fun hc => ?_
      have hmem : c ∈ text n := by rw [htext]; exact List.mem_cons_self
      rw [blank, Bool.or_eq_true, beq_iff_eq, beq_iff_eq] at hc
      rcases hc with rfl | rfl
      · exact notMem_text n (by decide) (by decide) hmem
      · exact notMem_text n (by decide) (by decide) hmem

/-! ## Base sixteen -/

def hexDigit (c : Char) : Option Nat :=
  if '0' ≤ c ∧ c ≤ '9' then some (c.toNat - 48)
  else if 'a' ≤ c ∧ c ≤ 'f' then some (c.toNat - 87)
  else none

def isHex (c : Char) : Bool := (hexDigit c).isSome

def ofHex (s : List Char) : Nat := s.foldl (fun n c => 16 * n + (hexDigit c).getD 0) 0

/-- The number at the front of a text, and what is behind it. -/
def readHex (s : List Char) : Option (Nat × List Char) :=
  if s.takeWhile isHex = [] then none else some (ofHex (s.takeWhile isHex), s.dropWhile isHex)

theorem hexDigit_digitChar : ∀ d < 16, hexDigit d.digitChar = some d := by decide

theorem isHex_digits (n : Nat) : ∀ c ∈ Nat.toDigits 16 n, isHex c = true := by
  induction n using Nat.strongRecOn with
  | ind n ih =>
      intro c hc
      by_cases hlt : n < 16
      · rw [Nat.toDigits_of_lt_base hlt, List.mem_singleton] at hc
        rw [hc, isHex, hexDigit_digitChar n hlt]
        rfl
      · rw [Nat.toDigits_of_base_le (by decide) (not_lt.mp hlt)] at hc
        rcases List.mem_append.mp hc with hc | hc
        · exact ih (n / 16) (by omega) c hc
        · rw [List.mem_singleton.mp hc, isHex, hexDigit_digitChar _ (Nat.mod_lt n (by decide))]
          rfl

theorem ofHex_digits (n : Nat) : ofHex (Nat.toDigits 16 n) = n := by
  induction n using Nat.strongRecOn with
  | ind n ih =>
      by_cases hlt : n < 16
      · rw [Nat.toDigits_of_lt_base hlt, ofHex, List.foldl_cons, List.foldl_nil,
          hexDigit_digitChar n hlt]
        simp
      · have hlast := hexDigit_digitChar _ (Nat.mod_lt n (show 0 < 16 by decide))
        have hinit := ih (n / 16) (by omega)
        rw [ofHex] at hinit
        rw [Nat.toDigits_of_base_le (by decide) (not_lt.mp hlt), ofHex, List.foldl_append, hinit,
          List.foldl_cons, List.foldl_nil, hlast, Option.getD_some]
        omega

theorem ofHex_padLeft (width : Nat) (s : List Char) : ofHex (padLeft '0' width s) = ofHex s := by
  have hzero : ∀ k,
      (List.replicate k '0').foldl (fun n c => 16 * n + (hexDigit c).getD 0) 0 = 0 := by
    intro k
    induction k with
    | zero => rfl
    | succ k ih =>
        rw [List.replicate_succ, List.foldl_cons]
        exact ih
  rw [ofHex, padLeft, List.foldl_append, hzero, ofHex]

/-- `%08llx` and the like. -/
def hexText (width n : Nat) : List Char := padLeft '0' width (Nat.toDigits 16 n)

theorem isHex_hexText (width n : Nat) : ∀ c ∈ hexText width n, isHex c = true := by
  intro c hc
  rcases List.mem_append.mp hc with hc | hc
  · rw [List.eq_of_mem_replicate hc]
    rfl
  · exact isHex_digits n c hc

/-- **A number is read back** from its text, whatever follows, if that is no digit. -/
theorem readHex_hexText (width n : Nat) {c : Char} (hc : isHex c = false) (rest : List Char) :
    readHex (hexText width n ++ c :: rest) = some (n, c :: rest) := by
  have hall := isHex_hexText width n
  have hne : hexText width n ≠ [] := fun h =>
    Nat.toDigits_ne_nil (List.append_eq_nil_iff.mp h).2
  have htake : (c :: rest).takeWhile isHex = [] :=
    List.takeWhile_cons_of_neg (by rw [hc]; exact Bool.false_ne_true)
  have hdrop : (c :: rest).dropWhile isHex = c :: rest :=
    List.dropWhile_cons_of_neg (by rw [hc]; exact Bool.false_ne_true)
  rw [readHex, List.takeWhile_append_of_pos hall, List.dropWhile_append_of_pos hall, htake, hdrop,
    List.append_nil, if_neg hne, hexText, ofHex_padLeft, ofHex_digits]

/-! ## Lines -/

def unlines (ls : List (List Char)) : List Char := ls.flatMap fun l => l ++ ['\n']

/-- The lines that a newline ends. -/
def lines (s : List Char) : List (List Char) := (s.splitOn '\n').dropLast

theorem lines_unlines {ls : List (List Char)} (h : ∀ l ∈ ls, '\n' ∉ l) :
    lines (unlines ls) = ls := by
  induction ls with
  | nil => rfl
  | cons l ls ih =>
      obtain ⟨hl, hls⟩ := List.forall_mem_cons.mp h
      have ih := ih hls
      rw [lines] at ih
      have hsplit : unlines (l :: ls) = l ++ '\n' :: unlines ls := by
        rw [unlines, List.flatMap_cons, List.append_assoc]
        rfl
      rw [lines, hsplit, List.splitOn_append_cons_self_of_not_mem hl,
        List.dropLast_cons_of_ne_nil (List.splitOn_ne_nil _ _), ih]

/-! ## The last of a kind -/

/-- What stands before the last `c`, and what behind it. -/
def splitLast (c : Char) : List Char → Option (List Char × List Char)
  | [] => none
  | x :: s =>
    match splitLast c s with
    | some (a, b) => some (x :: a, b)
    | none => if x = c then some ([], s) else none

theorem splitLast_none {c : Char} {s : List Char} (h : c ∉ s) : splitLast c s = none := by
  induction s with
  | nil => rfl
  | cons x s ih =>
      obtain ⟨hx, hs⟩ := List.ne_and_not_mem_of_not_mem_cons h
      rw [splitLast, ih hs]
      exact if_neg fun hc => hx hc.symm

theorem splitLast_append {c : Char} (a : List Char) {b : List Char} (h : c ∉ b) :
    splitLast c (a ++ c :: b) = some (a, b) := by
  induction a with
  | nil =>
      rw [List.nil_append, splitLast, splitLast_none h]
      exact if_pos rfl
  | cons x a ih => rw [List.cons_append, splitLast, ih]

/-! ## Keys -/

/-- A line is a key, a colon and a value; blanks in front of the value do not count. -/
def entry (l : List Char) : List Char × List Char :=
  (l.takeWhile (· ≠ ':'), ((l.dropWhile (· ≠ ':')).drop 1).dropWhile blank)

/-- The value of a key in a text of such lines. -/
def value (key s : List Char) : Option (List Char) := ((lines s).map entry).lookup key

theorem entry_line {key : List Char} (h : ':' ∉ key) (v : List Char) :
    entry (key ++ ':' :: v) = (key, v.dropWhile blank) := by
  have hall : ∀ c ∈ key, decide (c ≠ ':') = true := fun c hc =>
    decide_eq_true fun hcolon => h (hcolon ▸ hc)
  have hdrop : (key ++ ':' :: v).dropWhile (· ≠ ':') = ':' :: v := by
    rw [List.dropWhile_append_of_pos hall]
    rfl
  have htake : (key ++ ':' :: v).takeWhile (· ≠ ':') = key := by
    rw [List.takeWhile_append_of_pos hall]
    exact List.append_nil key
  rw [entry, htake, hdrop]
  rfl

/-- **A key finds its value**, behind any number of blanks. -/
theorem value_rows {rows : List (List Char × List Char)}
    (h : ∀ r ∈ rows, (':' ∉ r.1 ∧ '\n' ∉ r.1) ∧ '\n' ∉ r.2) (key : List Char) :
    value key (unlines (rows.map fun r => r.1 ++ ':' :: r.2)) =
      (rows.map fun r => (r.1, r.2.dropWhile blank)).lookup key := by
  have hlines : ∀ l ∈ rows.map (fun r => r.1 ++ ':' :: r.2), '\n' ∉ l := by
    intro l hl
    obtain ⟨r, hr, rfl⟩ := List.mem_map.mp hl
    obtain ⟨⟨-, hkey⟩, hvalue⟩ := h r hr
    rintro hmem
    rcases List.mem_append.mp hmem with hmem | hmem
    · exact hkey hmem
    · rcases List.mem_cons.mp hmem with hcolon | hmem
      · cases hcolon
      · exact hvalue hmem
  rw [value, lines_unlines hlines, List.map_map]
  congr 1
  refine List.map_congr_left fun r hr => ?_
  exact entry_line (h r hr).1.1 r.2

end Lines
