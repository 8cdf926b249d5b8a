import Mathlib.Data.List.TakeWhile
import Mathlib.Algebra.Order.Ring.Int
import Mathlib.Tactic.Linarith

/-!
Integers as signed decimal text, in front of whatever comes behind them. A
number is read back up to the first character that is no digit, so texts that
put another character behind each number are read back whole.
-/

namespace Decimal

/-- The digits of `n`, behind a minus sign if it is negative. -/
def text (n : Int) : List Char :=
  if n < 0 then '-' :: Nat.toDigits 10 n.natAbs else Nat.toDigits 10 n.natAbs

/-- The number at the front of a text, and what is behind it. -/
def readNat (s : List Char) : Option (Nat × List Char) :=
  if s.takeWhile Char.isDigit = [] then none
  else some (Nat.ofDigitChars 10 (s.takeWhile Char.isDigit) 0, s.dropWhile Char.isDigit)

def read : List Char → Option (Int × List Char)
  | '-' :: s => (readNat s).map fun r => (-(r.1 : Int), r.2)
  | s => (readNat s).map fun r => ((r.1 : Int), r.2)

/-- What is behind a number does not go on with a digit. -/
def Ends (rest : List Char) : Prop := ∀ c ∈ rest.head?, c.isDigit = false

theorem ends_nil : Ends [] := by
  intro c hc
  cases hc

theorem ends_cons {c : Char} (h : c.isDigit = false) (rest : List Char) : Ends (c :: rest) := by
  intro x hx
  cases hx
  exact h

theorem digits_span (n : Nat) {rest : List Char} (h : Ends rest) :
    (Nat.toDigits 10 n ++ rest).takeWhile Char.isDigit = Nat.toDigits 10 n ∧
      (Nat.toDigits 10 n ++ rest).dropWhile Char.isDigit = rest := by
  have hdig : ∀ c ∈ Nat.toDigits 10 n, c.isDigit = true := fun c hc =>
    Nat.isDigit_of_mem_toDigits (by decide) (by decide) hc
  have htake : rest.takeWhile Char.isDigit = [] := by
    cases rest with
    | nil => rfl
    | cons c rest => rw [List.takeWhile_cons_of_neg (by simp [h c rfl])]
  have hdrop : rest.dropWhile Char.isDigit = rest := by
    cases rest with
    | nil => rfl
    | cons c rest => rw [List.dropWhile_cons_of_neg (by simp [h c rfl])]
  rw [List.takeWhile_append_of_pos hdig, List.dropWhile_append_of_pos hdig, htake, hdrop]
  exact ⟨List.append_nil _, rfl⟩

theorem readNat_append (n : Nat) {rest : List Char} (h : Ends rest) :
    readNat (Nat.toDigits 10 n ++ rest) = some (n, rest) := by
  obtain ⟨htake, hdrop⟩ := digits_span n h
  rw [readNat, htake, hdrop, if_neg Nat.toDigits_ne_nil, Nat.ofDigitChars_ten_toDigits]

theorem toDigits_head (n : Nat) : ∃ c s, Nat.toDigits 10 n = c :: s ∧ c ≠ '-' := by
  cases hd : Nat.toDigits 10 n with
  | nil => exact absurd hd Nat.toDigits_ne_nil
  | cons c s =>
    have hc : c.isDigit = true :=
      Nat.isDigit_of_mem_toDigits (b := 10) (n := n) (by decide) (by decide) (by simp [hd])
    refine ⟨c, s, rfl, ?_⟩
    rintro rfl
    revert hc
    decide

/-- **A number is read back** from its text, whatever follows, if that is no digit. -/
theorem read_text (n : Int) {rest : List Char} (h : Ends rest) :
    read (text n ++ rest) = some (n, rest) := by
  rw [text]
  split
  · rename_i hneg
    rw [List.cons_append, read, readNat_append _ h, Option.map_some]
    have habs : -((n.natAbs : Nat) : Int) = n := by omega
    rw [habs]
  · rename_i hpos
    obtain ⟨c, s, hcs, hc⟩ := toDigits_head n.natAbs
    have hread : read (Nat.toDigits 10 n.natAbs ++ rest) =
        (readNat (Nat.toDigits 10 n.natAbs ++ rest)).map fun r => ((r.1 : Int), r.2) := by
      rw [hcs, List.cons_append, read]
      intro s' hs
      exact hc (List.cons.inj hs).1
    rw [hread, readNat_append _ h, Option.map_some]
    have habs : ((n.natAbs : Nat) : Int) = n := by omega
    rw [habs]

theorem text_ne_nil (n : Int) : text n ≠ [] := by
  rw [text]
  split
  · simp
  · exact Nat.toDigits_ne_nil

/-- A word of 64 bits takes at most twenty characters. -/
theorem text_length_le {n : Int} (hlo : -2 ^ 63 ≤ n) (hhi : n < 2 ^ 63) : (text n).length ≤ 20 := by
  have hlen : (Nat.toDigits 10 n.natAbs).length ≤ 19 :=
    (Nat.length_toDigits_le_iff (by decide) (by decide)).mpr (by omega)
  rw [text]
  split
  · rw [List.length_cons]
    omega
  · omega

/-- Only digits and the minus sign. -/
theorem mem_text {n : Int} {c : Char} (h : c ∈ text n) : c = '-' ∨ c.isDigit = true := by
  have hdig : c ∈ Nat.toDigits 10 n.natAbs → c.isDigit = true := fun hc =>
    Nat.isDigit_of_mem_toDigits (by decide) (by decide) hc
  rw [text] at h
  split at h
  · rcases List.mem_cons.mp h with hc | hc
    · exact Or.inl hc
    · exact Or.inr (hdig hc)
  · exact Or.inr (hdig h)

theorem notMem_text (n : Int) {c : Char} (hminus : c ≠ '-') (hdigit : c.isDigit = false) :
    c ∉ text n := by
  intro h
  rcases mem_text h with hc | hc
  · exact hminus hc
  · exact absurd hc (by rw [hdigit]; exact Bool.false_ne_true)

/-! ## Rows of numbers -/

section Rows

variable (sep fin : Char)

/-- Numbers with `sep` between them and `fin` at the end. -/
def row : List Int → List Char
  | [] => [fin]
  | [n] => text n ++ [fin]
  | n :: m :: ns => text n ++ sep :: row (m :: ns)

def expect (c : Char) : List Char → Option (List Char)
  | [] => none
  | x :: s => if x = c then some s else none

/-- Read `k` numbers of a row. -/
def readRow : Nat → List Char → Option (List Int × List Char)
  | 0, s => (expect fin s).map fun s => ([], s)
  | 1, s => do
    let (n, s) ← read s
    let s ← expect fin s
    return ([n], s)
  | k + 2, s => do
    let (n, s) ← read s
    let s ← expect sep s
    let (ns, s) ← readRow (k + 1) s
    return (n :: ns, s)

/-- Read rows of `k` numbers to the end of the text, at most as many as the fuel allows. -/
def readRows (k : Nat) : Nat → List Char → Option (List (List Int))
  | _, [] => some []
  | 0, _ :: _ => none
  | fuel + 1, s => do
    let (r, s) ← readRow sep fin k s
    let rs ← readRows k fuel s
    return r :: rs

variable {sep fin}

theorem readRow_row (hsep : sep.isDigit = false) (hfin : fin.isDigit = false) (rest : List Char) :
    ∀ ns : List Int, readRow sep fin ns.length (row sep fin ns ++ rest) = some (ns, rest)
  | [] => by
    simp [readRow, row, expect]
  | [n] => by
    have hread := read_text n (ends_cons hfin rest)
    simp [readRow, row, expect, hread]
  | n :: m :: ns => by
    have hread := read_text n (ends_cons hsep (row sep fin (m :: ns) ++ rest))
    have ih := readRow_row hsep hfin rest (m :: ns)
    rw [List.length_cons] at ih
    simp only [List.length_cons, readRow, row, List.append_assoc, List.cons_append, hread,
      expect, if_true, Option.bind_eq_bind, Option.bind_some, ih]
    rfl

theorem row_ne_nil (ns : List Int) : row sep fin ns ≠ [] := by
  match ns with
  | [] => simp [row]
  | [n] => simp [row]
  | n :: m :: ns => simp [row]

theorem length_le_rows (rows : List (List Int)) :
    rows.length ≤ (rows.flatMap (row sep fin)).length := by
  induction rows with
  | nil => simp
  | cons r rows ih =>
    have hr : 0 < (row sep fin r).length := List.length_pos_iff.mpr (row_ne_nil r)
    rw [List.flatMap_cons, List.length_append, List.length_cons]
    omega

/-- **Rows are read back**, however many there are. -/
theorem readRows_rows (hsep : sep.isDigit = false) (hfin : fin.isDigit = false) {k : Nat}
    (rows : List (List Int)) (hk : ∀ r ∈ rows, r.length = k) :
    ∀ fuel, rows.length ≤ fuel → readRows sep fin k fuel (rows.flatMap (row sep fin)) = some rows := by
  induction rows with
  | nil =>
    intro fuel _
    cases fuel <;> rfl
  | cons r rows ih =>
    intro fuel hfuel
    obtain ⟨hr, hrows⟩ := List.forall_mem_cons.mp hk
    cases fuel with
    | zero => simp at hfuel
    | succ fuel =>
      have hread := readRow_row hsep hfin (rows.flatMap (row sep fin)) r
      rw [hr] at hread
      have hrest := ih hrows fuel (Nat.succ_le_succ_iff.mp hfuel)
      rw [List.flatMap_cons]
      cases hne : row sep fin r ++ rows.flatMap (row sep fin) with
      | nil =>
        have hnil := (List.append_eq_nil_iff.mp hne).1
        exact absurd hnil (row_ne_nil r)
      | cons c s =>
        rw [readRows, ← hne, hread]
        · simp only [Option.bind_eq_bind, Option.bind_some, hrest]
          rfl
        · simp

theorem mem_row {c : Char} : ∀ {ns : List Int}, c ∈ row sep fin ns →
    c = sep ∨ c = fin ∨ c = '-' ∨ c.isDigit = true
  | [], h => .inr (.inl (List.mem_singleton.mp h))
  | [n], h => by
    rcases List.mem_append.mp h with htext | hfin
    · exact .inr (.inr (mem_text htext))
    · exact .inr (.inl (List.mem_singleton.mp hfin))
  | n :: m :: ns, h => by
    rcases List.mem_append.mp h with htext | hrest
    · exact .inr (.inr (mem_text htext))
    · rcases List.mem_cons.mp hrest with rfl | hrow
      · exact .inl rfl
      · exact mem_row hrow

/-- What splits a row at its separators gets as many parts as there are numbers. -/
theorem splitOn_row (hminus : sep ≠ '-') (hdigit : sep.isDigit = false) (hfin : sep ≠ fin) :
    ∀ {ns : List Int}, ns ≠ [] → ((row sep fin ns).splitOn sep).length = ns.length
  | [n], _ => by
    have hclean : sep ∉ row sep fin [n] := by
      intro h
      rcases List.mem_append.mp h with htext | hmem
      · exact notMem_text n hminus hdigit htext
      · exact hfin (List.mem_singleton.mp hmem)
    rw [List.splitOn_eq_singleton hclean]
    rfl
  | n :: m :: ns, _ => by
    have ih := splitOn_row hminus hdigit hfin (List.cons_ne_nil m ns)
    rw [row, List.splitOn_append_cons_self_of_not_mem (notMem_text n hminus hdigit),
      List.length_cons, ih]
    rfl

/-- Numbers of 64 bits take at most 21 characters each. -/
theorem row_length_le : ∀ {ns : List Int}, ns ≠ [] → (∀ n ∈ ns, -2 ^ 63 ≤ n ∧ n < 2 ^ 63) →
    (row sep fin ns).length ≤ 21 * ns.length
  | [n], _, h => by
    have hn := text_length_le (h n (by simp)).1 (h n (by simp)).2
    simp only [row, List.length_append, List.length_cons, List.length_nil]
    omega
  | n :: m :: ns, _, h => by
    obtain ⟨hn, hns⟩ := List.forall_mem_cons.mp h
    have hlen := text_length_le hn.1 hn.2
    have ih := row_length_le (List.cons_ne_nil m ns) hns
    simp only [row, List.length_append, List.length_cons] at ih ⊢
    omega

end Rows

end Decimal
