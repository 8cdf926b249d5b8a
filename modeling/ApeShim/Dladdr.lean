import ApeShim.Lib.CString
import ApeShim.Lib.Memory
import Mathlib.Data.BitVec

/-!
`dladdr` (`shim/dladdr.c`): the lines of `/proc/self/maps` are read through a buffer of 8192 bytes,
however `read` splits them, and checked one by one.
-/

namespace ApeShim.Dladdr
open Memory CString

/-! ## A line -/

/-- `hexval`; `none` for -1. -/
def hexval (c : UInt8) : Option Nat :=
  if 0x30 ≤ c ∧ c ≤ 0x39 then some (c.toNat - 0x30)
  else if 0x61 ≤ c ∧ c ≤ 0x66 then some (c.toNat - 0x61 + 10)
  else none

/-- A loop over hex digits: where it stops, and the value. -/
def hexField : List UInt8 → BitVec 64 → Option (List UInt8 × BitVec 64)
  | [], _ => none
  | c :: p, acc =>
    match hexval c with
    | some v => hexField p (acc <<< 4 ||| BitVec.ofNat 64 v)
    | none => some (c :: p, acc)

/-- `dli_fname` and `dli_fbase`. -/
structure Entry where
  path : List UInt8
  base : BitVec 64
  deriving DecidableEq, Repr

/-- `check_line`; no result where it reads past the buffer. -/
def checkLine (addr : BitVec 64) (line : List UInt8) : Option (Option Entry) := do
  let (p, start) ← hexField line 0
  if p.length = line.length ∨ p.head? ≠ some 0x2d then return none
  let q := p.tail
  let (p, stop) ← hexField q 0
  if p.length = q.length ∨ p.head? ≠ some 0x20 then return none
  if addr < start ∨ stop ≤ addr then return none
  match ← strchr 0x2f p with
  | none => return none
  | some path =>
    let n ← strlen path
    if 4096 ≤ n then return none
    return some ⟨path.take n, start⟩

/-! ## The buffer -/

/-- `sizeof buf` -/
def bufSize : Nat := 8192

/-- What is in the buffer from `p` on. -/
def tailFrom (mem : Nat → UInt8) (p : Nat) : List UInt8 := view mem p (bufSize - p)

inductive Lines
  | found (e : Entry)
  | left (mem : Nat → UInt8) (line : Nat) (skipping : Bool)

/-- The inner loop, from `line` on. -/
def lines (addr : BitVec 64) (len : Nat) (mem : Nat → UInt8) (line : Nat) (skipping : Bool) :
    Option Lines :=
  match _h : memchr 0x0a (len - line) (tailFrom mem line) with
  | none => none
  | some none => some (.left mem line skipping)
  | some (some k) =>
    let mem := Function.update mem (line + k) 0
    if skipping then lines addr len mem (line + k + 1) false
    else
      match checkLine addr (tailFrom mem line) with
      | none => none
      | some (some e) => some (.found e)
      | some none => lines addr len mem (line + k + 1) false
  termination_by len - line
  decreasing_by all_goals have := memchr_lt _h; omega

/-- The outer loop, before its `i`th read; `rest` is what the file still has, and `sizes` decides
how much of it a read returns. -/
def loop (addr : BitVec 64) (sizes : Nat → Nat) (i : Nat) (rest : List UInt8) (mem : Nat → UInt8)
    (len : Nat) (skipping : Bool) : Option (Option Entry) :=
  if bufSize < len then none
  else
    let n := min (sizes i + 1) (min (bufSize - len) rest.length)
    if n = 0 then some none
    else
      match lines addr (len + n) (blit mem len (rest.take n)) 0 skipping with
      | none => none
      | some (.found e) => some (some e)
      | some (.left mem line skipping) =>
        let left := len + n - line
        if bufSize < line + left then none
        else if left = bufSize then
          loop addr sizes (i + 1) (rest.drop n) (move mem 0 line left) 0 true
        else loop addr sizes (i + 1) (rest.drop n) (move mem 0 line left) left skipping
  termination_by rest.length
  decreasing_by all_goals simp only [List.length_drop]; omega

/-- `dladdr` on Linux. The buffer is static, so it begins with what an earlier call left. -/
def dladdr (addr : BitVec 64) (content : List UInt8) (sizes : Nat → Nat) (mem : Nat → UInt8) :
    Option (Option Entry) := loop addr sizes 0 content mem 0 false

/-! ## What it is for -/

def isHex (c : UInt8) : Bool := (hexval c).isSome

def hexValue (digits : List UInt8) : Nat :=
  digits.foldl (fun n c => 16 * n + (hexval c).getD 0) 0

/-- The line is `lo-hi`, a blank, and some fields before a path: the range has the address, and the
path is short enough. Numbers are machine words, and a line is a C string. -/
def Names (addr : BitVec 64) (line : List UInt8) (e : Entry) : Prop :=
  ∃ lo hi mid,
    text line = lo ++ 0x2d :: hi ++ 0x20 :: mid ++ e.path ∧
    lo ≠ [] ∧ hi ≠ [] ∧ (∀ c ∈ lo, isHex c = true) ∧ (∀ c ∈ hi, isHex c = true) ∧
    0x2f ∉ mid ∧ e.path.head? = some 0x2f ∧ e.path.length < 4096 ∧
    e.base = BitVec.ofNat 64 (hexValue lo) ∧ e.base ≤ addr ∧ addr < BitVec.ofNat 64 (hexValue hi)

/-- The lines that a newline ends. -/
def terminated (content : List UInt8) : List (List UInt8) := (content.splitOn 0x0a).dropLast

/-- The entry is that of the first line that is short enough and names one. -/
def Answers (addr : BitVec 64) (content : List UInt8) (e : Entry) : Prop :=
  ∃ before line after,
    terminated content = before ++ line :: after ∧ line.length < bufSize ∧ Names addr line e ∧
    ∀ l ∈ before, l.length < bufSize → ∀ e', ¬ Names addr l e'

/-! ## Checking a line -/

variable {addr : BitVec 64} {e : Entry} {s : List UInt8}

theorem hexval_lt {c : UInt8} {v : Nat} (h : hexval c = some v) : v < 2 ^ 4 := by
  unfold hexval at h
  split_ifs at h with hd hl
  · cases h
    have hle : c.toNat ≤ 0x39 := UInt8.le_iff_toNat_le.mp hd.2
    omega
  · cases h
    have hle : c.toNat ≤ 0x66 := UInt8.le_iff_toNat_le.mp hl.2
    omega

theorem shift_or (n : Nat) {v : Nat} (h : v < 2 ^ 4) :
    BitVec.ofNat 64 n <<< 4 ||| BitVec.ofNat 64 v = BitVec.ofNat 64 (16 * n + v) := by
  have hshift : (n % 2 ^ 64) <<< 4 % 2 ^ 64 = n <<< 4 % 2 ^ 64 := by
    rw [Nat.shiftLeft_eq, Nat.shiftLeft_eq]
    omega
  apply BitVec.eq_of_toNat_eq
  rw [BitVec.toNat_or, BitVec.toNat_shiftLeft, BitVec.toNat_ofNat, BitVec.toNat_ofNat,
    BitVec.toNat_ofNat, hshift, ← Nat.or_mod_two_pow, ← Nat.shiftLeft_add_eq_or_of_lt h,
    Nat.shiftLeft_eq, Nat.mul_comm]

theorem hexField_append {digits : List UInt8} (h : ∀ c ∈ digits, isHex c = true) {c : UInt8}
    (hc : isHex c = false) (t : List UInt8) (n : Nat) :
    hexField (digits ++ c :: t) (BitVec.ofNat 64 n) =
      some (c :: t, BitVec.ofNat 64 (digits.foldl (fun n c => 16 * n + (hexval c).getD 0) n)) := by
  induction digits generalizing n with
  | nil =>
    have hnone : hexval c = none := by simpa [isHex] using hc
    rw [List.nil_append, hexField, hnone]
    rfl
  | cons d digits ih =>
    rw [List.forall_mem_cons] at h
    obtain ⟨v, hv⟩ := Option.isSome_iff_exists.mp h.1
    rw [List.cons_append, hexField, hv]
    dsimp only
    rw [shift_or n (hexval_lt hv), ih h.2, List.foldl_cons, hv]
    rfl

/-- A field ends at the latest at the NUL. -/
theorem hexField_eq (h : 0 ∈ s) : ∃ digits c t, s = digits ++ c :: t ∧
    (∀ d ∈ digits, isHex d = true) ∧ isHex c = false ∧ 0 ∈ c :: t ∧
    hexField s 0 = some (c :: t, BitVec.ofNat 64 (hexValue digits)) := by
  have hdrop : s.dropWhile isHex ≠ [] := by
    rw [ne_eq, List.dropWhile_eq_nil_iff]
    intro hall
    exact absurd (hall 0 h) (by decide)
  obtain ⟨c, t, ht⟩ := List.exists_cons_of_ne_nil hdrop
  have hsplit : s = s.takeWhile isHex ++ c :: t := by rw [← ht, List.takeWhile_append_dropWhile]
  have hall : ∀ d ∈ s.takeWhile isHex, isHex d = true := List.all_eq_true.mp List.all_takeWhile
  have hc : isHex c = false := by
    have hnot := List.head?_dropWhile_not isHex s
    rw [ht] at hnot
    exact hnot
  refine ⟨_, c, t, hsplit, hall, hc, ?_, ?_⟩
  · rw [hsplit] at h
    rcases List.mem_append.mp h with h0 | h0
    · exact absurd (hall 0 h0) (by decide)
    · exact h0
  · have hfield := hexField_append hall hc t 0
    rw [← hsplit] at hfield
    exact hfield

theorem zero_notMem_hex {digits : List UInt8} (h : ∀ d ∈ digits, isHex d = true) : 0 ∉ digits :=
  fun h0 => absurd (h 0 h0) (by decide)

/-- The path is found behind fields that have no slash. -/
theorem strchr_path {mid path t : List UInt8} (hmid : 0x2f ∉ mid) (hpath : path.head? = some 0x2f)
    (h0 : 0 ∉ mid ++ path) : strchr 0x2f (mid ++ path ++ 0 :: t) = some (some (path ++ 0 :: t)) := by
  obtain ⟨tail, rfl⟩ := List.head?_eq_some_iff.mp hpath
  have hdrop : (mid ++ 0x2f :: tail).dropWhile (fun c => decide (c ≠ 0x2f)) = 0x2f :: tail := by
    rw [List.dropWhile_append_of_pos]
    · rfl
    · intro c hc
      have hne : c ≠ 0x2f := by
        rintro rfl
        exact hmid hc
      simpa using hne
  rw [strchr_append (by decide) h0, if_pos (by simp), hdrop]

theorem checkLine_of_names (h : 0 ∈ s) (hn : Names addr s e) : checkLine addr s = some (some e) := by
  obtain ⟨lo, hi, mid, htext, hlo, hhi, hlox, hhix, hmid, hpath, hlen, hbase, hle, hlt⟩ := hn
  obtain ⟨t, ht⟩ := exists_text h
  have hnul := zero_notMem_text s
  rw [htext] at ht hnul
  have hs : s = lo ++ 0x2d :: (hi ++ 0x20 :: (mid ++ e.path ++ 0 :: t)) := by simpa using ht
  have hfirst : hexField s 0 = some (0x2d :: (hi ++ 0x20 :: (mid ++ e.path ++ 0 :: t)), e.base) := by
    rw [hs, hbase]
    exact hexField_append hlox (by decide) _ 0
  have hsecond : hexField (hi ++ 0x20 :: (mid ++ e.path ++ 0 :: t)) 0 =
      some (0x20 :: (mid ++ e.path ++ 0 :: t), BitVec.ofNat 64 (hexValue hi)) :=
    hexField_append hhix (by decide) _ 0
  have hclean : 0 ∉ 0x20 :: mid ++ e.path := by
    intro h0
    exact hnul (by simp at h0 ⊢; tauto)
  have hfound : strchr 0x2f (0x20 :: (mid ++ e.path ++ 0 :: t)) = some (some (e.path ++ 0 :: t)) :=
    @strchr_path (0x20 :: mid) e.path t (by simpa using hmid) hpath hclean
  have hstrlen : strlen (e.path ++ 0 :: t) = some e.path.length :=
    strlen_append fun h0 => hclean (List.mem_append_right _ h0)
  have hne1 : (0x2d :: (hi ++ 0x20 :: (mid ++ e.path ++ 0 :: t))).length ≠ s.length := by
    have := List.length_pos_of_ne_nil hlo
    rw [hs, List.length_append]
    omega
  have hne2 : (0x20 :: (mid ++ e.path ++ 0 :: t)).length ≠
      (hi ++ 0x20 :: (mid ++ e.path ++ 0 :: t)).length := by
    have := List.length_pos_of_ne_nil hhi
    rw [List.length_append]
    omega
  rw [checkLine, hfirst]
  simp only [Option.bind_eq_bind, Option.bind_some, List.tail_cons, List.head?_cons, hne1, hsecond,
    hne2, hfound, hstrlen]
  rw [if_neg (by simp), if_neg (by simp),
    if_neg (not_or.mpr ⟨BitVec.not_lt.mpr hle, BitVec.not_le.mpr hlt⟩), if_neg (by omega),
    List.take_left]
  rfl

theorem head_dropWhile {x : UInt8} (h : x ∈ s) : (s.dropWhile (· ≠ x)).head? = some x := by
  have hnot := List.head?_dropWhile_not (fun c => decide (c ≠ x)) s
  cases hd : (s.dropWhile (fun c => decide (c ≠ x))).head? with
  | none =>
    rw [List.head?_eq_none_iff, List.dropWhile_eq_nil_iff] at hd
    simpa using hd x h
  | some c =>
    rw [hd] at hnot
    rw [show c = x by simpa using hnot]

/-- The check stays inside the buffer, and finds only what the line names. -/
theorem checkLine_names (h : 0 ∈ s) :
    ∃ r, checkLine addr s = some r ∧ ∀ e, r = some e → Names addr s e := by
  obtain ⟨lo, c, q, hs, hlox, hc, h0, hfirst⟩ := hexField_eq h
  rw [checkLine, hfirst]
  simp only [Option.bind_eq_bind, Option.bind_some, List.tail_cons, List.head?_cons]
  by_cases hdash : (c :: q).length = s.length ∨ some c ≠ some 0x2d
  · rw [if_pos hdash]
    exact ⟨none, rfl, fun e he => by cases he⟩
  rw [if_neg hdash]
  simp only [not_or, ne_eq, not_not, Option.some.injEq] at hdash
  obtain ⟨hlo, rfl⟩ := hdash
  have hq0 : 0 ∈ q := by simpa using h0
  obtain ⟨hi, c, p, hq, hhix, hc', hp0, hsecond⟩ := hexField_eq hq0
  rw [hsecond]
  simp only [Option.bind_some, List.head?_cons]
  by_cases hblank : (c :: p).length = q.length ∨ some c ≠ some 0x20
  · rw [if_pos hblank]
    exact ⟨none, rfl, fun e he => by cases he⟩
  rw [if_neg hblank]
  simp only [not_or, ne_eq, not_not, Option.some.injEq] at hblank
  obtain ⟨hhi, rfl⟩ := hblank
  split
  · exact ⟨none, rfl, fun e he => by cases he⟩
  rename_i hrange
  rw [not_or, BitVec.not_lt, BitVec.not_le] at hrange
  obtain ⟨t, ht⟩ := exists_text hp0
  have hnul := zero_notMem_text (0x20 :: p)
  rw [ht, strchr_append (by decide) hnul]
  by_cases hslash : 0x2f ∈ text (0x20 :: p)
  · rw [if_pos hslash]
    rw [text_cons (by decide)] at hnul hslash ⊢
    have hsplit : text p = (text p).takeWhile (· ≠ 0x2f) ++ (text p).dropWhile (· ≠ 0x2f) :=
      List.takeWhile_append_dropWhile.symm
    have hdrop : (0x20 :: text p).dropWhile (· ≠ 0x2f) = (text p).dropWhile (· ≠ 0x2f) :=
      List.dropWhile_cons_of_pos (by decide)
    have hpath0 : 0 ∉ (text p).dropWhile (· ≠ 0x2f) := fun h0 =>
      hnul (List.mem_cons_of_mem _ ((List.dropWhile_sublist _).mem h0))
    rw [hdrop]
    simp only [Option.bind_some, strlen_append hpath0]
    split
    · exact ⟨none, rfl, fun e he => by cases he⟩
    · rename_i hlen
      refine ⟨_, rfl, fun e he => ?_⟩
      cases he
      rw [List.take_left]
      refine ⟨lo, hi, (text p).takeWhile (· ≠ 0x2f), ?_, ?_, ?_, hlox, hhix, ?_, ?_, ?_, rfl,
        hrange.1, hrange.2⟩
      · rw [hs, text_append (zero_notMem_hex hlox), text_cons (by decide), hq,
          text_append (zero_notMem_hex hhix), text_cons (by decide)]
        conv_lhs => rw [hsplit]
        simp only [List.append_assoc, List.cons_append]
      · rintro rfl
        exact hlo (by rw [hs]; rfl)
      · rintro rfl
        exact hhi (by rw [hq]; rfl)
      · intro hm
        simpa using List.all_eq_true.mp (List.all_takeWhile (l := text p)) _ hm
      · exact head_dropWhile (by simpa using hslash)
      · simpa using hlen
  · rw [if_neg hslash]
    exact ⟨none, rfl, fun e he => by cases he⟩

/-- A line in the buffer, with a NUL in place of its newline. -/
theorem checkLine_eq (line t : List UInt8) :
    ∃ r, checkLine addr (line ++ 0 :: t) = some r ∧ ∀ e, r = some e ↔ Names addr line e := by
  have h : (0 : UInt8) ∈ line ++ 0 :: t := by simp
  have hsame : ∀ e, Names addr (line ++ 0 :: t) e ↔ Names addr line e := fun e => by
    rw [Names, text_append_zero, Names]
  obtain ⟨r, hr, hnames⟩ := @checkLine_names addr _ h
  refine ⟨r, hr, fun e => ⟨fun he => (hsame e).mp (hnames e he), fun hn => ?_⟩⟩
  have := checkLine_of_names h ((hsame e).mpr hn)
  rw [hr] at this
  exact Option.some.inj this

/-! ## Line by line -/

section Lines

variable {p v c rest : List UInt8}

theorem terminated_none (h : 0x0a ∉ p) : terminated p = [] := by
  rw [terminated, List.splitOn_eq_splitOnP, List.splitOnP_eq_singleton]
  · rfl
  · intro x hx
    have hne : x ≠ 0x0a := by
      rintro rfl
      exact h hx
    simpa using hne

theorem terminated_line (h : 0x0a ∉ p) (rest : List UInt8) :
    terminated (p ++ 0x0a :: rest) = p :: terminated rest := by
  rw [terminated, List.splitOn_eq_splitOnP, List.splitOnP_append_cons_of_forall_mem]
  · rw [← List.splitOn_eq_splitOnP, List.dropLast_cons_of_ne_nil (List.splitOn_ne_nil _ _)]
    rfl
  · intro x hx
    have hne : x ≠ 0x0a := by
      rintro rfl
      exact h hx
    simpa using hne
  · rfl

theorem not_answers (h : 0x0a ∉ p) : ¬ Answers addr p e := by
  rintro ⟨before, line, after, hsplit, -⟩
  rw [terminated_none h] at hsplit
  exact absurd hsplit (by simp)

/-- The first line decides if it is short enough and names an entry. -/
theorem answers_line (h : 0x0a ∉ p) (rest : List UInt8) : Answers addr (p ++ 0x0a :: rest) e ↔
    (p.length < bufSize ∧ Names addr p e) ∨
      ((p.length < bufSize → ∀ e', ¬ Names addr p e') ∧ Answers addr rest e) := by
  unfold Answers
  rw [terminated_line h]
  constructor
  · rintro ⟨before, line, after, hsplit, hlen, hn, hfirst⟩
    cases before with
    | nil =>
      obtain ⟨rfl, -⟩ := List.cons.inj hsplit
      exact Or.inl ⟨hlen, hn⟩
    | cons l before =>
      obtain ⟨rfl, hrest⟩ := List.cons.inj hsplit
      rw [List.forall_mem_cons] at hfirst
      exact Or.inr ⟨hfirst.1, before, line, after, hrest, hlen, hn, hfirst.2⟩
  · rintro (⟨hlen, hn⟩ | ⟨hno, before, line, after, hsplit, hlen, hn, hfirst⟩)
    · exact ⟨[], p, terminated rest, rfl, hlen, hn, by simp⟩
    · exact ⟨p :: before, line, after, by rw [hsplit]; rfl, hlen, hn,
        List.forall_mem_cons.mpr ⟨hno, hfirst⟩⟩

/-- A line that is too long, or names nothing, does not matter. -/
theorem answers_skip (h : 0x0a ∉ p) (hno : p.length < bufSize → ∀ e', ¬ Names addr p e')
    (rest : List UInt8) : Answers addr (p ++ 0x0a :: rest) e ↔ Answers addr rest e := by
  rw [answers_line h]
  constructor
  · rintro (⟨hlen, hn⟩ | ⟨-, hrest⟩)
    · exact absurd hn (hno hlen e)
    · exact hrest
  · exact fun hrest => Or.inr ⟨hno, hrest⟩

/-- A short line that names an entry is the answer. -/
theorem answers_found (h : 0x0a ∉ p) (hlen : p.length < bufSize)
    (hn : ∀ e', some e = some e' ↔ Names addr p e') (rest : List UInt8) {e' : Entry} :
    Answers addr (p ++ 0x0a :: rest) e' ↔ e' = e := by
  rw [answers_line h, ← hn]
  constructor
  · rintro (⟨-, he⟩ | ⟨hno, -⟩)
    · exact (Option.some.inj he).symm
    · exact absurd ((hn e).mp rfl) (hno hlen e)
  · rintro rfl
    exact Or.inl ⟨hlen, rfl⟩

/-- What the buffer holds of the line `p` that was begun: all of it, or, once the line is too long,
some end of it. -/
structure Holds (v : List UInt8) (skipping : Bool) (p : List UInt8) : Prop where
  unended : 0x0a ∉ p
  whole : skipping = false → v = p
  excess : skipping = true → v <:+ p ∧ bufSize ≤ p.length

theorem holds_nil : Holds [] false [] := ⟨by simp, fun _ => rfl, fun h => by cases h⟩

theorem Holds.clean {skipping : Bool} (h : Holds v skipping p) : 0x0a ∉ v := by
  cases skipping with
  | false =>
    rw [h.whole rfl]
    exact h.unended
  | true => exact fun hv => h.unended ((h.excess rfl).1.mem hv)

/-- More of the same line. -/
theorem Holds.append {skipping : Bool} (h : Holds v skipping p) (hc : 0x0a ∉ c) :
    Holds (v ++ c) skipping (p ++ c) where
  unended := by simp [h.unended, hc]
  whole hs := by rw [h.whole hs]
  excess := by
    intro hs
    obtain ⟨⟨u, hu⟩, hlen⟩ := h.excess hs
    refine ⟨⟨u, by rw [← hu, List.append_assoc]⟩, ?_⟩
    rw [List.length_append]
    omega

/-- What the inner loop comes to. -/
def Lines.Fits (addr : BitVec 64) (len : Nat) (sofar : List UInt8) : Lines → Prop
  | .found e => ∀ rest e', Answers addr (sofar ++ rest) e' ↔ e' = e
  | .left mem line skipping => line ≤ len ∧ ∃ p, Holds (view mem line (len - line)) skipping p ∧
      ∀ rest e', Answers addr (sofar ++ rest) e' ↔ Answers addr (p ++ rest) e'

/-- The line that ends at a newline, which a NUL replaces. -/
theorem tailFrom_line {len line : Nat} {mem : Nat → UInt8} {u w : List UInt8} (hlen : len ≤ bufSize)
    (hle : line ≤ len) (hv : view mem line (len - line) = u ++ 0x0a :: w) :
    ∃ t, tailFrom (Function.update mem (line + u.length) 0) line = u ++ 0 :: t := by
  obtain ⟨hu, -, -, hn⟩ := of_view_eq hv
  obtain ⟨k, hk⟩ := Nat.exists_eq_add_of_le (show u.length + 1 ≤ bufSize - line by omega)
  rw [tailFrom, hk, view_add, view_succ, view_update_end, hu, Function.update_self, List.append_assoc]
  exact ⟨_, rfl⟩

theorem memchr_line {len line : Nat} {mem : Nat → UInt8} {u w : List UInt8} (hlen : len ≤ bufSize)
    (hle : line ≤ len) (hu : 0x0a ∉ u) (hv : view mem line (len - line) = u ++ 0x0a :: w) :
    memchr 0x0a (len - line) (tailFrom mem line) = some (some u.length) := by
  have hsum : bufSize - line = (len - line) + (bufSize - len) := by omega
  have hn := (of_view_eq hv).2.2.2
  rw [tailFrom, hsum, view_add, hv, List.append_assoc, List.cons_append, hn, Nat.add_comm w.length,
    ← Nat.add_assoc]
  exact memchr_append hu _

theorem memchr_rest {len line : Nat} {mem : Nat → UInt8} {u : List UInt8} (hlen : len ≤ bufSize)
    (hle : line ≤ len) (hu : 0x0a ∉ u) (hv : view mem line (len - line) = u) :
    memchr 0x0a (len - line) (tailFrom mem line) = some none := by
  have hsum : bufSize - line = (len - line) + (bufSize - len) := by omega
  have hn : u.length = len - line := by rw [← hv, view_length]
  rw [tailFrom, hsum, view_add, hv, ← hn]
  exact memchr_none hu

/-- What decides nothing may stand in front. -/
theorem Lines.Fits.of_iff {o : Lines} {len : Nat} {u w : List UInt8} (h : o.Fits addr len w)
    (hu : ∀ rest e, Answers addr (u ++ rest) e ↔ Answers addr (w ++ rest) e) : o.Fits addr len u := by
  cases o with
  | found e => exact fun rest e' => (hu rest e').trans (h rest e')
  | left mem line skipping =>
    obtain ⟨hle, p, hp, hrest⟩ := h
    exact ⟨hle, p, hp, fun rest e' => (hu rest e').trans (hrest rest e')⟩

theorem lines_rest {len line : Nat} {mem : Nat → UInt8} {skipping : Bool}
    (h : memchr 0x0a (len - line) (tailFrom mem line) = some none) :
    lines addr len mem line skipping = some (.left mem line skipping) := by
  rw [lines]
  split <;> rename_i heq <;> rw [h] at heq <;> cases heq

theorem lines_newline {len line k : Nat} {mem : Nat → UInt8} {skipping : Bool}
    (h : memchr 0x0a (len - line) (tailFrom mem line) = some (some k)) :
    lines addr len mem line skipping =
      if skipping then lines addr len (Function.update mem (line + k) 0) (line + k + 1) false
      else
        match checkLine addr (tailFrom (Function.update mem (line + k) 0) line) with
        | none => none
        | some (some e) => some (.found e)
        | some none => lines addr len (Function.update mem (line + k) 0) (line + k + 1) false := by
  rw [lines]
  split <;> rename_i heq <;> rw [h] at heq <;> cases heq
  rfl

/-- The inner loop hands every line of the buffer to the check, but for the one that was too
long. -/
theorem lines_fits {len line : Nat} {mem : Nat → UInt8} {skipping : Bool} (hle : line ≤ len)
    (hlen : len ≤ bufSize) (hv : view mem line (len - line) = v ++ c) (h : Holds v skipping p) :
    ∃ o, lines addr len mem line skipping = some o ∧ o.Fits addr len (p ++ c) := by
  induction hm : len - line using Nat.strongRecOn generalizing line mem skipping v c p with
  | _ m ih =>
    by_cases hc : 0x0a ∈ c
    · obtain ⟨c₁, c₂, rfl, hc₁⟩ := List.eq_append_cons_of_mem hc
      rw [← List.append_assoc] at hv ⊢
      have hclean : 0x0a ∉ v ++ c₁ := by simp [h.clean, hc₁]
      have hopen : 0x0a ∉ p ++ c₁ := by simp [h.unended, hc₁]
      obtain ⟨-, -, hw, hn⟩ := of_view_eq hv
      have hwidth : len - (line + (v ++ c₁).length + 1) = c₂.length := by omega
      -- what stands behind the newline
      have hrest : view (Function.update mem (line + (v ++ c₁).length) 0)
          (line + (v ++ c₁).length + 1) (len - (line + (v ++ c₁).length + 1)) = [] ++ c₂ := by
        rw [hwidth, List.nil_append]
        refine (view_congr fun i hi _ => ?_).trans hw
        exact Function.update_of_ne (by omega) _ _
      obtain ⟨o, ho, hfits⟩ := ih _ (by omega) (by omega) hrest holds_nil rfl
      have hskip : ((p ++ c₁).length < bufSize → ∀ e', ¬ Names addr (p ++ c₁) e') →
          o.Fits addr len (p ++ c₁ ++ 0x0a :: c₂) := by
        intro hno
        refine hfits.of_iff fun rest e => ?_
        rw [List.append_assoc, List.cons_append]
        exact answers_skip hopen hno _
      rw [lines_newline (memchr_line hlen hle hclean hv)]
      cases skipping with
      | true =>
        have hlong := (h.excess rfl).2
        refine ⟨o, ho, hskip fun hshort => ?_⟩
        rw [List.length_append] at hshort
        omega
      | false =>
        obtain rfl := h.whole rfl
        obtain ⟨t, ht⟩ := tailFrom_line hlen hle hv
        obtain ⟨r, hr, hnames⟩ := @checkLine_eq addr (v ++ c₁) t
        simp only [Bool.false_eq_true, ↓reduceIte, ht, hr]
        cases r with
        | none => exact ⟨o, ho, hskip fun _ e' hn' => by cases (hnames e').mpr hn'⟩
        | some e =>
          refine ⟨_, rfl, fun rest e' => ?_⟩
          rw [List.append_assoc, List.cons_append]
          exact answers_found hopen (by omega) hnames _
    · rw [lines_rest (memchr_rest hlen hle (h.append hc).clean hv)]
      refine ⟨_, rfl, hle, p ++ c, ?_, fun rest e' => Iff.rfl⟩
      rw [hv]
      exact h.append hc

/-! ## Read by read -/

theorem loop_answers {sizes : Nat → Nat} {i : Nat} {mem : Nat → UInt8} {len : Nat} {skipping : Bool}
    (hlen : len < bufSize) (h : Holds (view mem 0 len) skipping p) :
    ∃ r, loop addr sizes i rest mem len skipping = some r ∧
      ∀ e, r = some e ↔ Answers addr (p ++ rest) e := by
  induction hm : rest.length using Nat.strongRecOn generalizing i rest mem len skipping p with
  | _ m ih =>
    rw [loop, if_neg (by omega)]
    dsimp only
    split
    · rename_i hn
      have hrest : rest = [] := List.length_eq_zero_iff.mp (by omega)
      refine ⟨none, rfl, fun e => ?_⟩
      rw [hrest, List.append_nil]
      exact iff_of_false (fun he => by cases he) (not_answers h.unended)
    rename_i hn
    set n := min (sizes i + 1) (min (bufSize - len) rest.length) with hndef
    have htake : (rest.take n).length = n := by rw [List.length_take]; omega
    have hview : view (blit mem len (rest.take n)) 0 (len + n - 0) = view mem 0 len ++ rest.take n := by
      have := view_blit_append (m := mem) (a := 0) (n := len) (rest.take n)
      rwa [htake, Nat.zero_add] at this
    obtain ⟨o, ho, hfits⟩ := @lines_fits addr _ _ _ _ _ _ _ (Nat.zero_le _)
      (show len + n ≤ bufSize by omega) hview h
    rw [ho]
    have hjoin : p ++ rest = p ++ rest.take n ++ rest.drop n := by
      rw [List.append_assoc, List.take_append_drop]
    cases o with
    | found e =>
      refine ⟨some e, rfl, fun e' => ?_⟩
      rw [hjoin, hfits]
      constructor
      · intro he
        exact (Option.some.inj he).symm
      · rintro rfl
        rfl
    | left mem' line skipping' =>
      obtain ⟨hle, p', hp', hsame⟩ := hfits
      have hless : (rest.drop n).length < m := by
        rw [List.length_drop]
        omega
      have hmoved : view (move mem' 0 line (len + n - line)) 0 (len + n - line) =
          view mem' line (len + n - line) := by
        have := view_blit (m := mem') (a := 0) (view mem' line (len + n - line))
        rwa [view_length] at this
      rw [hjoin]
      simp only [hsame]
      rw [if_neg (by omega)]
      split
      · -- the buffer is full, and holds no newline
        rename_i hfull
        have hlong : bufSize ≤ p'.length := by
          cases skipping' with
          | true => exact (hp'.excess rfl).2
          | false =>
            rw [← hp'.whole rfl, view_length]
            omega
        have hskip : Holds (view (move mem' 0 line (len + n - line)) 0 0) true p' :=
          ⟨hp'.unended, fun hs => absurd hs (by decide), fun _ => ⟨List.nil_suffix, hlong⟩⟩
        exact ih _ hless (by decide) hskip rfl
      · refine ih _ hless (by omega) ?_ rfl
        rw [hmoved]
        exact hp'

/-- **The lookup does not depend on the reads.** It finds what the first short line with the address
in its range names, and stays inside the buffer. -/
theorem dladdr_answers (addr : BitVec 64) (content : List UInt8) (sizes : Nat → Nat)
    (mem : Nat → UInt8) : ∃ r, dladdr addr content sizes mem = some r ∧
      ∀ e, r = some e ↔ Answers addr content e := by
  have hempty : Holds (view mem 0 0) false [] := holds_nil
  exact loop_answers (by decide) hempty

end Lines

end ApeShim.Dladdr
