import ApeShim.Lib.Unicode
import ApeShim.Nt.Chars
import Mathlib.Data.List.Basic
import Mathlib.Data.List.Infix

/-!
The command line of a spawned child (`shim/mkntcmdline.c`): an argv of UTF-8
strings written as one UTF-16 line, and the line taken apart again by the
Microsoft argument rules. The decoding macros of cosmo's `thompike.h`, its
`EncodeUtf16` and `mungentpath` are not part of the repository and stand as
parameters.
-/

namespace ApeShim.Nt
open Unicode

/-- What `mkntcmdline.c` uses of cosmo. -/
structure Cosmo where
  thomPikeLen : Nat → Nat
  thomPikeByte : Nat → Nat
  thomPikeMerge : Nat → Nat → Nat
  encodeUtf16 : Nat → Nat
  mungentpath : List UInt8 → List UInt8
  /-- `PATH_MAX` -/
  pathMax : Nat

/-- The documented behaviour of the decoding macros and of `EncodeUtf16`: the lead
byte gives the number of bytes, the merged bits are the code point, and the two
halves of a pair are the lower and the upper 16 bits. -/
structure Cosmo.Documented (c : Cosmo) : Prop where
  thomPike : ∀ {x : Char} {b : UInt8} {rest : List UInt8}, 0xC0 ≤ b.toNat →
    String.utf8EncodeChar x = b :: rest →
    c.thomPikeLen b.toNat = rest.length + 1 ∧
      rest.foldl (fun v y => c.thomPikeMerge v y.toNat) (c.thomPikeByte b.toNat) = x.toNat
  utf16 : ∀ x : Char, c.encodeUtf16 x.toNat =
    if x.toNat < 0x10000 then x.toNat
    else (0xDC00 + (x.toNat - 0x10000) % 0x400) * 0x10000 + (0xD800 + (x.toNat - 0x10000) / 0x400)

/-! ## The encoder -/

def needsQuotes (s : List UInt8) : Bool :=
  s.isEmpty || s.any fun b => b = 0x22 || b = 0x20 || b = 0x09 || b = 0x0B || b = 0x0A

/-- A C string read past its end is NUL. -/
def at0 (s : List UInt8) (i : Nat) : Nat := (s.getD i 0).toNat

def looksLikeCosmoDrivePath (s : List UInt8) : Bool :=
  at0 s 0 = 0x2F && isAlpha (at0 s 1) && at0 s 2 = 0x2F

/-- The path of an existing drive, `/x/...`. -/
def isDrivePath (drives : BitVec 32) (a : List UInt8) : Bool :=
  looksLikeCosmoDrivePath a && driveExists drives (at0 a 1)

namespace Cosmo

variable (c : Cosmo)

/-- The `while (--n)` loop, with `n` continuation bytes to come. -/
def merge : Nat → Nat → List UInt8 → Nat × List UInt8
  | 0, x, arg => (x, arg)
  | _ + 1, _, [] => (0, [])
  | n + 1, x, y :: arg => if y = 0 then (0, arg) else merge n (c.thomPikeMerge x y.toNat) arg

/-- The next code point, 0 at the end. -/
def next : List UInt8 → Nat × List UInt8
  | [] => (0, [])
  | b :: arg =>
      if 0xC0 ≤ b.toNat then
        c.merge (c.thomPikeLen b.toNat - 1) (c.thomPikeByte b.toNat) arg
      else (b.toNat, arg)

/-- `do APPEND(w); while ((w >>= 16));` for a 32-bit `w`. -/
def appendWord (w : Nat) : List UInt16 :=
  UInt16.ofNat w :: (if w / 0x10000 % 0x10000 = 0 then [] else [UInt16.ofNat (w / 0x10000)])

/-- The loop over one argument: the units appended, and the backslashes still held
back at its end. -/
def argLoop : Nat → List UInt8 → Nat → List UInt16 × Nat
  | 0, _, slashes => ([], slashes)
  | fuel + 1, arg, slashes =>
      let r := c.next arg
      if r.1 = 0 then ([], slashes)
      else if r.1 = 0x5C then argLoop fuel r.2 (slashes + 1)
      else if r.1 = 0x22 then
        let t := argLoop fuel r.2 slashes
        (0x22 :: 0x22 :: 0x22 :: t.1, t.2)
      else
        let t := argLoop fuel r.2 0
        (List.replicate slashes 0x5C ++ appendWord (c.encodeUtf16 r.1) ++ t.1, t.2)

/-- The argument as it is written: rewritten for a native child, where it is the
path of an existing drive and fits `argbuf`. -/
def arg (drives : BitVec 32) (native : Bool) (a : List UInt8) : List UInt8 :=
  if native && isDrivePath drives a && a.length < c.pathMax then c.mungentpath a else a

def encodeArg (a : List UInt8) : List UInt16 :=
  let q := needsQuotes a
  let t := c.argLoop (a.length + 1) a 0
  (if q then [0x22] else []) ++ t.1 ++ List.replicate (t.2 <<< q.toNat) 0x5C ++
    (if q then [0x22] else [])

/-- `__ape_shim_mkntcmdline`: what it leaves in `cmdline`, and its return value. -/
def mkntcmdline (drives : BitVec 32) (argv : List (List UInt8)) (size : Nat) (native : Bool) :
    List UInt16 × Nat :=
  let line := [0x20].intercalate (argv.map fun a => c.encodeArg (c.arg drives native a))
  (if size = 0 then [] else line.take (size - 1) ++ [0], line.length)

end Cosmo

/-! ## The argument rules -/

/-- The line is taken apart from left to right: inside quotes or not, the
backslashes just read, and the argument under way.

- `2n` backslashes before a quote are `n`, and the quote counts; `2n+1` are `n` and
  a literal quote;
- a tripled quote inside quotes is one quote, any other opens or closes them;
- a blank outside quotes ends the argument. -/
def dosTokens : List Char → Bool → Nat → Option (List Char) → List (List Char)
  | [], _, n, cur => (cur.map (· ++ List.replicate n '\\')).toList
  | x :: rest, q, n, cur =>
      let a := cur.getD []
      if x = '\\' then dosTokens rest q (n + 1) (some a)
      else if x = '"' then
        let a := a ++ List.replicate (n / 2) '\\'
        if n % 2 = 1 then dosTokens rest q 0 (some (a ++ ['"']))
        else
          match rest with
          | y :: z :: tail =>
              if q = true ∧ y = '"' ∧ z = '"' then dosTokens tail true 0 (some (a ++ ['"']))
              else dosTokens (y :: z :: tail) (!q) 0 (some a)
          | tail => dosTokens tail (!q) 0 (some a)
      else if q = false ∧ (x = ' ' ∨ x = '\t') then
        (cur.map (· ++ List.replicate n '\\')).toList ++ dosTokens rest false 0 none
      else dosTokens rest q 0 (some (a ++ List.replicate n '\\' ++ [x]))

/-- The argv a child makes of its command line. -/
def getDosArgv (line : List UInt16) : List (List UInt8) :=
  (dosTokens (utf16Decode (line.takeWhile (· ≠ 0))) false 0 none).map utf8

/-! ## The loop on characters -/

/-- `argLoop` read on characters. -/
def loopChars : List Char → Nat → List Char × Nat
  | [], slashes => ([], slashes)
  | x :: cs, slashes =>
      if x = '\\' then loopChars cs (slashes + 1)
      else if x = '"' then
        let t := loopChars cs slashes
        ('"' :: '"' :: '"' :: t.1, t.2)
      else
        let t := loopChars cs 0
        (List.replicate slashes '\\' ++ x :: t.1, t.2)

/-- The text that line decodes to: a backslash moves behind the quotes that
follow it. -/
def moved : List Char → Nat → List Char
  | [], slashes => List.replicate slashes '\\'
  | x :: cs, slashes =>
      if x = '\\' then moved cs (slashes + 1)
      else if x = '"' then '"' :: moved cs slashes
      else List.replicate slashes '\\' ++ x :: moved cs 0

namespace Cosmo

variable {c : Cosmo}

theorem appendWord_encodeUtf16 (hc : c.Documented) (x : Char) :
    appendWord (c.encodeUtf16 x.toNat) = utf16EncodeChar x := by
  have hlt := toNat_lt x
  rw [hc.utf16]
  unfold utf16EncodeChar appendWord
  by_cases hx : x.toNat < 0x10000
  · rw [if_pos hx, if_pos hx, if_pos (by omega)]
  · rw [if_neg hx, if_neg hx]
    have hhigh : (x.toNat - 0x10000) / 0x400 < 0x400 := by omega
    have hlow : (x.toNat - 0x10000) % 0x400 < 0x400 := by omega
    generalize (x.toNat - 0x10000) / 0x400 = high at hhigh
    generalize (x.toNat - 0x10000) % 0x400 = low at hlow
    have hdiv : ((0xDC00 + low) * 0x10000 + (0xD800 + high)) / 0x10000 = 0xDC00 + low := by omega
    have hmod : UInt16.ofNat ((0xDC00 + low) * 0x10000 + (0xD800 + high)) =
        UInt16.ofNat (0xD800 + high) := by
      apply UInt16.toNat_inj.mp
      rw [UInt16.toNat_ofNat', UInt16.toNat_ofNat']
      omega
    rw [hdiv, hmod, if_neg (by omega)]

theorem merge_eq_foldl (rest arg : List UInt8) (x : Nat) (h : ∀ y ∈ rest, IsCont y) :
    c.merge rest.length x (rest ++ arg) =
      (rest.foldl (fun v y => c.thomPikeMerge v y.toNat) x, arg) := by
  induction rest generalizing x with
  | nil => rfl
  | cons y rest ih =>
    have hy : y ≠ 0 := by
      rintro rfl
      exact absurd (h 0 (by simp)).1 (by decide)
    simp only [List.length_cons, List.cons_append, merge, if_neg hy, List.foldl_cons]
    exact ih _ fun z hz => h z (by simp [hz])

/-- The next code point is the next character. -/
theorem next_utf8 (hc : c.Documented) (x : Char) (cs : List Char) :
    c.next (utf8 (x :: cs)) = (x.toNat, utf8 cs) := by
  rw [utf8_cons]
  by_cases hx : x.toNat < 0x80
  · have hb : (UInt8.ofNat x.toNat).toNat = x.toNat := by
      rw [UInt8.toNat_ofNat']
      omega
    rw [utf8EncodeChar_ascii hx, List.singleton_append, next, if_neg (by omega), hb]
  · obtain ⟨b, rest, he, hb, hrest⟩ := utf8EncodeChar_wide (not_lt.mp hx)
    obtain ⟨hlen, hfold⟩ := hc.thomPike hb he
    rw [he, List.cons_append, next, if_pos hb, hlen, Nat.add_sub_cancel, merge_eq_foldl _ _ _ hrest,
      hfold]

theorem utf16_replicate_slash (n : Nat) :
    utf16 (List.replicate n '\\') = List.replicate n 0x5C := by
  induction n with
  | zero => rfl
  | succ n ih =>
    rw [List.replicate_succ, utf16_cons, ih]
    rfl

theorem argLoop_utf8 (hc : c.Documented) (cs : List Char) (hnul : '\x00' ∉ cs) (fuel slashes : Nat)
    (hf : cs.length < fuel) :
    c.argLoop fuel (utf8 cs) slashes =
      (utf16 (loopChars cs slashes).1, (loopChars cs slashes).2) := by
  induction cs generalizing fuel slashes with
  | nil =>
    cases fuel with
    | zero => cases hf
    | succ fuel => simp [argLoop, next, loopChars, utf16]
  | cons x cs ih =>
    simp only [List.mem_cons, not_or] at hnul
    cases fuel with
    | zero => cases hf
    | succ fuel =>
      have hf' : cs.length < fuel := by
        simp only [List.length_cons] at hf
        omega
      have hx : x.toNat ≠ 0 := by
        intro h0
        exact hnul.1 (Char.toNat_inj.mp h0).symm
      have hslash : x.toNat = 0x5C ↔ x = '\\' := Char.toNat_inj (d := '\\')
      have hquote : x.toNat = 0x22 ↔ x = '"' := Char.toNat_inj (d := '"')
      simp only [argLoop, next_utf8 hc, if_neg hx, loopChars, hslash, hquote]
      split
      · exact ih hnul.2 fuel _ hf'
      · split
        · rw [ih hnul.2 fuel _ hf']
          rfl
        · rw [ih hnul.2 fuel _ hf', appendWord_encodeUtf16 hc, utf16_append, utf16_cons]
          rw [utf16_replicate_slash, List.append_assoc]

end Cosmo

/-! ## Taking the line apart -/

section Tokens

variable (rest a : List Char) (q : Bool)

theorem dosTokens_cons (x : Char) (n : Nat) (cur : Option (List Char)) :
    dosTokens (x :: rest) q n cur =
      let a := cur.getD []
      if x = '\\' then dosTokens rest q (n + 1) (some a)
      else if x = '"' then
        let a := a ++ List.replicate (n / 2) '\\'
        if n % 2 = 1 then dosTokens rest q 0 (some (a ++ ['"']))
        else
          match rest with
          | y :: z :: tail =>
              if q = true ∧ y = '"' ∧ z = '"' then dosTokens tail true 0 (some (a ++ ['"']))
              else dosTokens (y :: z :: tail) (!q) 0 (some a)
          | tail => dosTokens tail (!q) 0 (some a)
      else if q = false ∧ (x = ' ' ∨ x = '\t') then
        (cur.map (· ++ List.replicate n '\\')).toList ++ dosTokens rest false 0 none
      else dosTokens rest q 0 (some (a ++ List.replicate n '\\' ++ [x])) :=
  dosTokens.eq_def (x :: rest) q n cur

theorem dosTokens_slash (n : Nat) :
    dosTokens ('\\' :: rest) q n (some a) = dosTokens rest q (n + 1) (some a) := by
  rw [dosTokens_cons]
  simp only [if_true, Option.getD_some]

theorem dosTokens_slashes (m n : Nat) :
    dosTokens (List.replicate m '\\' ++ rest) q n (some a) = dosTokens rest q (n + m) (some a) := by
  induction m generalizing n with
  | zero => rfl
  | succ m ih =>
    rw [List.replicate_succ, List.cons_append, dosTokens_slash, ih]
    congr 1
    omega

theorem dosTokens_open : dosTokens ('"' :: rest) false 0 none = dosTokens rest true 0 (some []) := by
  rw [dosTokens_cons]
  cases rest with
  | nil => rfl
  | cons y rest =>
    cases rest with
    | nil => simp
    | cons z rest => simp

theorem dosTokens_tripled : dosTokens ('"' :: '"' :: '"' :: rest) true 0 (some a) =
    dosTokens rest true 0 (some (a ++ ['"'])) := by
  rw [dosTokens_cons]
  simp

theorem dosTokens_close (n : Nat) (h : rest.head? ≠ some '"') :
    dosTokens ('"' :: rest) true (2 * n) (some a) =
      dosTokens rest false 0 (some (a ++ List.replicate n '\\')) := by
  have hdiv : 2 * n / 2 = n := by omega
  rw [dosTokens_cons]
  cases rest with
  | nil => simp [hdiv]
  | cons y rest =>
    have hy : y ≠ '"' := by simpa using h
    cases rest with
    | nil => simp [hdiv]
    | cons z rest => simp [hdiv, hy]

theorem dosTokens_literal {x : Char} (hs : x ≠ '\\') (hq : x ≠ '"')
    (hb : q = true ∨ (x ≠ ' ' ∧ x ≠ '\t')) (n : Nat) :
    dosTokens (x :: rest) q n (some a) =
      dosTokens rest q 0 (some (a ++ List.replicate n '\\' ++ [x])) := by
  have hblank : ¬ (q = false ∧ (x = ' ' ∨ x = '\t')) := by
    rintro ⟨rfl, hx⟩
    rcases hb with hb | ⟨h₁, h₂⟩
    · cases hb
    · exact hx.elim h₁ h₂
  rw [dosTokens_cons]
  simp only [if_neg hs, if_neg hq, if_neg hblank, Option.getD_some]

/-- The end of an argument: the end of the line or a blank. -/
theorem dosTokens_end {tail : List Char} (h : ∀ x ∈ tail.head?, x = ' ') (n : Nat) :
    dosTokens tail false n (some a) =
      (a ++ List.replicate n '\\') :: dosTokens tail.tail false 0 none := by
  cases tail with
  | nil => simp [dosTokens]
  | cons x tail =>
    have hx : x = ' ' := h x (by simp)
    subst hx
    rw [dosTokens_cons]
    simp

end Tokens

/-- Inside quotes the loop's output reads as the moved text, but for the
backslashes it still holds back. -/
theorem dosTokens_loopChars (cs : List Char) (s : Nat) :
    ∃ front, moved cs s = front ++ List.replicate (loopChars cs s).2 '\\' ∧
      ∀ a rest, dosTokens ((loopChars cs s).1 ++ rest) true 0 (some a) =
        dosTokens rest true 0 (some (a ++ front)) := by
  induction cs generalizing s with
  | nil => exact ⟨[], rfl, fun a rest => by simp [loopChars]⟩
  | cons x cs ih =>
    simp only [moved, loopChars]
    split
    · exact ih (s + 1)
    · rename_i hs
      split
      · obtain ⟨front, hf, ht⟩ := ih s
        refine ⟨'"' :: front, by rw [hf]; rfl, fun a rest => ?_⟩
        rw [List.cons_append, List.cons_append, List.cons_append, dosTokens_tripled, ht]
        simp
      · rename_i hq
        obtain ⟨front, hf, ht⟩ := ih 0
        refine ⟨List.replicate s '\\' ++ x :: front, by rw [hf]; simp, fun a rest => ?_⟩
        rw [List.append_assoc, List.cons_append, dosTokens_slashes,
          dosTokens_literal _ _ _ hs hq (Or.inl rfl), ht, Nat.zero_add]
        simp

/-- Without quotes and blanks the text reads as itself. -/
theorem dosTokens_plain (cs : List Char) (hplain : ∀ x ∈ cs, x ≠ '"' ∧ x ≠ ' ' ∧ x ≠ '\t') (n : Nat)
    (a : List Char) {tail : List Char} (h : ∀ x ∈ tail.head?, x = ' ') :
    dosTokens (cs ++ tail) false n (some a) =
      (a ++ List.replicate n '\\' ++ cs) :: dosTokens tail.tail false 0 none := by
  induction cs generalizing n a with
  | nil => simpa using dosTokens_end a h n
  | cons x cs ih =>
    have hx := hplain x (by simp)
    have hcs : ∀ y ∈ cs, y ≠ '"' ∧ y ≠ ' ' ∧ y ≠ '\t' := fun y hy => hplain y (by simp [hy])
    rw [List.cons_append]
    by_cases hs : x = '\\'
    · subst hs
      rw [dosTokens_slash, ih hcs, List.replicate_succ']
      simp
    · rw [dosTokens_literal _ _ _ hs hx.1 (Or.inr hx.2), ih hcs]
      simp

theorem loopChars_plain (cs : List Char) (hplain : ∀ x ∈ cs, x ≠ '"') (s : Nat) :
    (loopChars cs s).1 ++ List.replicate (loopChars cs s).2 '\\' = List.replicate s '\\' ++ cs ∧
      moved cs s = List.replicate s '\\' ++ cs := by
  induction cs generalizing s with
  | nil => simp [loopChars, moved]
  | cons x cs ih =>
    have hx := hplain x (by simp)
    have hcs : ∀ y ∈ cs, y ≠ '"' := fun y hy => hplain y (by simp [hy])
    simp only [loopChars, moved]
    split
    · rename_i hs
      subst hs
      have := ih hcs (s + 1)
      rw [List.replicate_succ'] at this
      simpa using this
    · obtain ⟨h₁, h₂⟩ := ih hcs 0
      constructor
      · simpa using h₁
      · simpa using h₂

/-! ## One argument, and the whole line -/

def quotedChars (cs : List Char) : List Char :=
  '"' :: (loopChars cs 0).1 ++ List.replicate (2 * (loopChars cs 0).2) '\\' ++ ['"']

theorem dosTokens_quotedChars (cs : List Char) {tail : List Char} (h : ∀ x ∈ tail.head?, x = ' ') :
    dosTokens (quotedChars cs ++ tail) false 0 none =
      moved cs 0 :: dosTokens tail.tail false 0 none := by
  obtain ⟨front, hf, ht⟩ := dosTokens_loopChars cs 0
  have hhead : tail.head? ≠ some '"' := by
    intro hq
    have := h '"' (by rw [hq]; rfl)
    exact absurd this (by decide)
  simp only [quotedChars, List.cons_append, List.append_assoc, List.nil_append]
  rw [dosTokens_open, ht, dosTokens_slashes, Nat.zero_add, dosTokens_close _ _ _ hhead,
    dosTokens_end _ h, hf]
  simp

/-- The characters of an argument's part of the line. -/
def argChars (cs : List Char) : List Char :=
  if needsQuotes (utf8 cs) then quotedChars cs else cs

theorem needsQuotes_utf8_false {cs : List Char} (h : needsQuotes (utf8 cs) = false) :
    cs ≠ [] ∧ ∀ x ∈ cs, x ≠ '"' ∧ x ≠ ' ' ∧ x ≠ '\t' := by
  simp only [needsQuotes, Bool.or_eq_false_iff, List.any_eq_false, Bool.or_eq_true,
    decide_eq_true_eq, not_or] at h
  obtain ⟨hne, hall⟩ := h
  refine ⟨?_, ?_⟩
  · rintro rfl
    cases hne
  · intro x hx
    refine ⟨?_, ?_, ?_⟩
    · rintro rfl
      exact (hall _ ((mem_utf8 (a := '"') (by decide)).mpr hx)).1.1.1.1 rfl
    · rintro rfl
      exact (hall _ ((mem_utf8 (a := ' ') (by decide)).mpr hx)).1.1.1.2 rfl
    · rintro rfl
      exact (hall _ ((mem_utf8 (a := '\t') (by decide)).mpr hx)).1.1.2 rfl

theorem dosTokens_argChars (cs : List Char) {tail : List Char} (h : ∀ x ∈ tail.head?, x = ' ') :
    dosTokens (argChars cs ++ tail) false 0 none =
      moved cs 0 :: dosTokens tail.tail false 0 none := by
  unfold argChars
  split
  · exact dosTokens_quotedChars cs h
  · rename_i hq
    obtain ⟨hne, hplain⟩ := needsQuotes_utf8_false (by simpa using hq)
    have hm := (loopChars_plain cs (fun x hx => (hplain x hx).1) 0).2
    have hopen : dosTokens (cs ++ tail) false 0 none = dosTokens (cs ++ tail) false 0 (some []) := by
      cases cs with
      | nil => exact absurd rfl hne
      | cons x cs =>
        have hx := hplain x (by simp)
        have hblank : ¬ (x = ' ' ∨ x = '\t') := fun hb => hb.elim hx.2.1 hx.2.2
        rw [List.cons_append, dosTokens.eq_def, dosTokens.eq_def (x :: (cs ++ tail)) false 0 (some [])]
        simp [hx.1, hblank]
    rw [hopen, dosTokens_plain cs hplain 0 [] h, hm]
    rfl

theorem dosTokens_line (css : List (List Char)) :
    dosTokens ([' '].intercalate (css.map argChars)) false 0 none = css.map fun cs => moved cs 0 := by
  induction css with
  | nil => rfl
  | cons cs css ih =>
    cases css with
    | nil =>
      have := @dosTokens_argChars cs [] (by simp)
      simpa [List.intercalate, dosTokens] using this
    | cons ds css =>
      have := @dosTokens_argChars cs (' ' :: [' '].intercalate ((ds :: css).map argChars)) (by simp)
      rw [List.tail_cons, ih] at this
      simpa [List.intercalate] using this

namespace Cosmo

variable {c : Cosmo}

theorem encodeArg_utf8 (hc : c.Documented) {cs : List Char} (hnul : '\x00' ∉ cs) :
    c.encodeArg (utf8 cs) = utf16 (argChars cs) := by
  have hlen : cs.length < (utf8 cs).length + 1 := Nat.lt_succ_of_le (length_le_utf8 cs)
  have hquote : utf16 ['"'] = [0x22] := rfl
  unfold encodeArg argChars
  simp only [argLoop_utf8 hc cs hnul _ 0 hlen]
  cases hq : needsQuotes (utf8 cs) with
  | true =>
    have hshift : (loopChars cs 0).2 <<< 1 = 2 * (loopChars cs 0).2 := by
      rw [Nat.shiftLeft_eq]
      omega
    have hcons : utf16 ('"' :: (loopChars cs 0).1) = 0x22 :: utf16 (loopChars cs 0).1 := rfl
    simp only [if_true, Bool.toNat_true, quotedChars, utf16_append, utf16_replicate_slash, hshift,
      hcons, hquote]
    rfl
  | false =>
    obtain ⟨-, hplain⟩ := needsQuotes_utf8_false hq
    have hl := (loopChars_plain cs (fun x hx => (hplain x hx).1) 0).1
    simp only [Bool.false_eq_true, if_false, Bool.toNat_false, Nat.shiftLeft_zero, List.nil_append,
      List.append_nil, ← utf16_replicate_slash, ← utf16_append, hl]
    rfl

theorem intercalate_encodeArg (hc : c.Documented) (css : List (List Char))
    (hnul : ∀ cs ∈ css, '\x00' ∉ cs) :
    [0x20].intercalate (css.map fun cs => c.encodeArg (utf8 cs)) =
      utf16 ([' '].intercalate (css.map argChars)) := by
  induction css with
  | nil => rfl
  | cons cs css ih =>
    have hcs := encodeArg_utf8 hc (hnul cs (by simp))
    have ih := ih fun ds hds => hnul ds (by simp [hds])
    cases css with
    | nil => simpa [List.intercalate] using hcs
    | cons ds css =>
      have hblank : utf16 [' '] = [0x20] := rfl
      simp only [List.intercalate, List.map_cons, List.intersperse_cons_cons, List.flatten_cons,
        utf16_append, hcs, hblank] at ih ⊢
      rw [ih]

theorem mem_loopChars {x : Char} (cs : List Char) (s : Nat) (hx : x ∈ (loopChars cs s).1) :
    x ∈ cs ∨ x = '"' ∨ x = '\\' := by
  induction cs generalizing s with
  | nil => simp [loopChars] at hx
  | cons y cs ih =>
    simp only [loopChars] at hx
    split at hx
    · exact (ih _ hx).imp_left (List.mem_cons_of_mem y)
    · split at hx
      · simp only [List.mem_cons] at hx
        rcases hx with rfl | rfl | rfl | hx
        · exact Or.inr (Or.inl rfl)
        · exact Or.inr (Or.inl rfl)
        · exact Or.inr (Or.inl rfl)
        · exact (ih _ hx).imp_left (List.mem_cons_of_mem y)
      · simp only [List.mem_append, List.mem_replicate, List.mem_cons] at hx
        rcases hx with ⟨-, rfl⟩ | rfl | hx
        · exact Or.inr (Or.inr rfl)
        · exact Or.inl (by simp)
        · exact (ih _ hx).imp_left (List.mem_cons_of_mem y)

theorem mem_argChars {x : Char} (cs : List Char) (hx : x ∈ argChars cs) :
    x ∈ cs ∨ x = '"' ∨ x = '\\' := by
  unfold argChars at hx
  split at hx
  · simp only [quotedChars, List.mem_append, List.mem_cons, List.mem_replicate, List.not_mem_nil,
      or_false] at hx
    rcases hx with ((rfl | hx) | ⟨-, rfl⟩) | rfl
    · exact Or.inr (Or.inl rfl)
    · exact mem_loopChars cs 0 hx
    · exact Or.inr (Or.inr rfl)
    · exact Or.inr (Or.inl rfl)
  · exact Or.inl hx

theorem nul_notMem_line (css : List (List Char)) (hnul : ∀ cs ∈ css, '\x00' ∉ cs) :
    '\x00' ∉ [' '].intercalate (css.map argChars) := by
  have harg : ∀ cs ∈ css, '\x00' ∉ argChars cs := by
    intro cs hcs h
    rcases mem_argChars cs h with h | h | h
    · exact hnul cs hcs h
    · exact absurd h (by decide)
    · exact absurd h (by decide)
  induction css with
  | nil => simp [List.intercalate]
  | cons cs css ih =>
    have ih := ih (fun ds hds => hnul ds (by simp [hds])) fun ds hds => harg ds (by simp [hds])
    cases css with
    | nil => simpa [List.intercalate] using harg cs (by simp)
    | cons ds css =>
      simp only [List.intercalate, List.map_cons, List.intersperse_cons_cons, List.flatten_cons,
        List.mem_append, List.mem_singleton, not_or] at ih ⊢
      exact ⟨harg cs (by simp), by decide, ih⟩

/-- What the child makes of the line. -/
theorem getDosArgv_mkntcmdline (hc : c.Documented) (drives : BitVec 32) (native : Bool)
    (argv : List (List UInt8)) (css : List (List Char)) (hnul : ∀ cs ∈ css, '\x00' ∉ cs)
    (hargs : argv.map (c.arg drives native) = css.map utf8) {size : Nat}
    (hsize : (c.mkntcmdline drives argv size native).2 < size) :
    getDosArgv (c.mkntcmdline drives argv size native).1 = css.map fun cs => utf8 (moved cs 0) := by
  have hline : [0x20].intercalate (argv.map fun a => c.encodeArg (c.arg drives native a)) =
      utf16 ([' '].intercalate (css.map argChars)) := by
    rw [← intercalate_encodeArg hc css hnul]
    have := congrArg (List.map c.encodeArg) hargs
    rw [List.map_map, List.map_map] at this
    exact congrArg _ this
  have hz := zero_notMem_utf16 (nul_notMem_line css hnul)
  simp only [mkntcmdline, hline] at hsize ⊢
  have hsize0 : size ≠ 0 := by omega
  rw [if_neg hsize0, List.take_of_length_le (by omega), getDosArgv, List.takeWhile_append_of_pos]
  · simp only [ne_eq, not_true_eq_false, decide_false, Bool.false_eq_true, not_false_eq_true,
      List.takeWhile_cons_of_neg, List.append_nil]
    rw [utf16Decode_utf16, dosTokens_line, List.map_map]
    rfl
  · intro u hu
    have : u ≠ 0 := by
      rintro rfl
      exact hz hu
    simpa using this

end Cosmo

/-- The moved text is the text itself exactly when no backslash stands before a
quote. -/
theorem moved_eq_iff (cs : List Char) (s : Nat) :
    moved cs s = List.replicate s '\\' ++ cs ↔
      ¬ ['\\', '"'] <:+: List.replicate s '\\' ++ cs := by
  induction cs generalizing s with
  | nil =>
    have hno : ¬ ['\\', '"'] <:+: List.replicate s '\\' ++ [] := by
      intro h
      have := h.subset (show '"' ∈ ['\\', '"'] by simp)
      rw [List.append_nil] at this
      exact absurd (List.eq_of_mem_replicate this) (by decide)
    exact ⟨fun _ => hno, fun _ => by simp [moved]⟩
  | cons x cs ih =>
    simp only [moved]
    split
    · rename_i hx
      subst hx
      have := ih (s + 1)
      rw [List.replicate_succ', List.append_assoc, List.singleton_append] at this
      exact this
    · rename_i hx
      have hskip : ∀ y, ['\\', y] <:+: x :: cs ↔ ['\\', y] <:+: cs := by
        intro y
        rw [List.infix_cons_iff, List.cons_prefix_cons]
        simp [Ne.symm hx]
      split
      · rename_i hq
        subst hq
        cases s with
        | zero =>
          have := ih 0
          simp only [List.replicate_zero, List.nil_append] at this ⊢
          rw [hskip, List.cons_inj_right, this]
        | succ s =>
          constructor
          · intro h
            rw [List.replicate_succ, List.cons_append] at h
            exact absurd (List.cons.inj h).1 (by decide)
          · intro h
            refine absurd ⟨List.replicate s '\\', cs, ?_⟩ h
            rw [List.replicate_succ']
            simp
      · rename_i hq
        have hno : ['\\', '"'] <:+: List.replicate s '\\' ++ x :: cs ↔ ['\\', '"'] <:+: cs := by
          induction s with
          | zero => exact hskip '"'
          | succ s ihs =>
            rw [List.replicate_succ, List.cons_append, List.infix_cons_iff, ihs]
            constructor
            · rintro (hp | hi)
              · have hp := (List.cons_prefix_cons.mp hp).2
                cases s with
                | zero => exact absurd (List.cons_prefix_cons.mp hp).1.symm hq
                | succ s => exact absurd (List.cons_prefix_cons.mp hp).1 (by decide)
              · exact hi
            · exact Or.inr
        have := ih 0
        simp only [List.replicate_zero, List.nil_append] at this
        rw [hno, ← this, List.append_cancel_left_eq, List.cons_inj_right]

/-! ## The round trip -/

/-- A NUL-free UTF-8 string. -/
structure Text where
  chars : List Char
  nulFree : '\x00' ∉ chars

def Text.bytes (t : Text) : List UInt8 := utf8 t.chars

namespace Cosmo

/-- What the child should see of an argument. -/
def expected (c : Cosmo) (drives : BitVec 32) (native : Bool) (a : List UInt8) : List UInt8 :=
  if native && isDrivePath drives a then c.mungentpath a else a

/-- `mungentpath` turns the path of a drive into a string that starts with the
drive's letter. -/
def Munges (c : Cosmo) (t : Text) : Prop :=
  looksLikeCosmoDrivePath t.bytes = true →
    ∃ u : Text, c.mungentpath t.bytes = u.bytes ∧ at0 u.bytes 0 ≠ 0x2F

variable {c : Cosmo} {drives : BitVec 32} {native : Bool}

theorem arg_text {t : Text} (hm : c.Munges t) : ∃ u : Text, c.arg drives native t.bytes = u.bytes := by
  unfold arg
  split
  · rename_i h
    simp only [isDrivePath, Bool.and_eq_true] at h
    obtain ⟨u, hu, -⟩ := hm h.1.2.1
    exact ⟨u, hu⟩
  · exact ⟨t, rfl⟩

theorem head_moved {cs : List Char} (h : at0 (utf8 cs) 0 = 0x2F) :
    at0 (utf8 (moved cs 0)) 0 = 0x2F := by
  have hpre : [UInt8.ofNat '/'.toNat] <+: utf8 cs := by
    cases hu : utf8 cs with
    | nil => simp [hu, at0] at h
    | cons b rest =>
      simp only [hu, at0, List.getD_cons_zero] at h
      have : b = 0x2F := UInt8.toNat_inj.mp h
      simp [this]
  obtain ⟨rest, rfl⟩ := (head_utf8 (b := '/') (by decide) cs).mp hpre
  rfl

/-- One argument comes back as it should. -/
theorem moved_expected_iff {t u : Text} (hm : c.Munges t)
    (hu : c.arg drives native t.bytes = u.bytes) :
    utf8 (moved u.chars 0) = c.expected drives native t.bytes ↔
      ¬ [0x5C, 0x22] <:+: u.bytes ∧
        ((native && isDrivePath drives t.bytes) = true → t.bytes.length < c.pathMax) := by
  have hpair : [0x5C, 0x22] <:+: u.bytes ↔ ['\\', '"'] <:+: u.chars :=
    pair_infix_utf8 (a := '\\') (b := '"') (by decide) (by decide) u.chars
  have hsame : utf8 (moved u.chars 0) = u.bytes ↔ ¬ [0x5C, 0x22] <:+: u.bytes := by
    rw [hpair, Text.bytes, utf8_injective.eq_iff]
    simpa using moved_eq_iff u.chars 0
  cases hd : native && isDrivePath drives t.bytes with
  | false =>
    have he : c.expected drives native t.bytes = u.bytes := by
      rw [← hu]
      simp [expected, arg, hd]
    rw [he, hsame]
    simp
  | true =>
    by_cases hlen : t.bytes.length < c.pathMax
    · have he : c.expected drives native t.bytes = u.bytes := by
        rw [← hu]
        simp [expected, arg, hd, hlen]
      rw [he, hsame]
      simp [hlen]
    · -- left as it is, the argument still starts with its slash
      have harg : c.arg drives native t.bytes = t.bytes := by simp [arg, hlen]
      have hlooks : looksLikeCosmoDrivePath t.bytes = true := by
        simp only [isDrivePath, Bool.and_eq_true] at hd
        exact hd.2.1
      obtain ⟨v, hv, hslash⟩ := hm hlooks
      have hstart : at0 u.bytes 0 = 0x2F := by
        rw [← hu, harg]
        simp only [looksLikeCosmoDrivePath, Bool.and_eq_true, decide_eq_true_eq] at hlooks
        exact hlooks.1.1
      refine ⟨fun h => ?_, fun h => absurd (h.2 rfl) hlen⟩
      have hexp : c.expected drives native t.bytes = v.bytes := by simp [expected, hd, hv]
      rw [hexp] at h
      exact absurd (h ▸ head_moved hstart) hslash

end Cosmo

/-- **Round trip.** The child gets its argv back, each path of an existing drive
rewritten for a native child, exactly when no argument as written has a backslash
right before a quote and every path to rewrite is shorter than PATH_MAX. -/
theorem cmdline_round_trip_iff {c : Cosmo} (hc : c.Documented) {drives : BitVec 32} {native : Bool}
    {argv : List Text} (hm : ∀ t ∈ argv, c.Munges t) {size : Nat}
    (hsize : (c.mkntcmdline drives (argv.map Text.bytes) size native).2 < size) :
    getDosArgv (c.mkntcmdline drives (argv.map Text.bytes) size native).1 =
        argv.map (fun t => c.expected drives native t.bytes) ↔
      ∀ t ∈ argv, ¬ [0x5C, 0x22] <:+: c.arg drives native t.bytes ∧
        ((native && isDrivePath drives t.bytes) = true → t.bytes.length < c.pathMax) := by
  have htexts : ∃ us : List Text, List.Forall₂ (fun t u => c.arg drives native t.bytes = u.bytes) argv us := by
    clear hsize
    induction argv with
    | nil => exact ⟨[], .nil⟩
    | cons t argv ih =>
      obtain ⟨u, hu⟩ := Cosmo.arg_text (hm t (by simp))
      obtain ⟨us, hus⟩ := ih fun t' ht' => hm t' (by simp [ht'])
      exact ⟨u :: us, .cons hu hus⟩
  obtain ⟨us, hus⟩ := htexts
  have hargs : (argv.map Text.bytes).map (c.arg drives native) = (us.map Text.chars).map utf8 := by
    clear hsize hm
    induction hus with
    | nil => rfl
    | cons hu _ ih => simp only [List.map_cons, ih, hu]; rfl
  have hnul : ∀ cs ∈ us.map Text.chars, '\x00' ∉ cs := by
    intro cs hcs
    obtain ⟨u, -, rfl⟩ := List.mem_map.mp hcs
    exact u.nulFree
  rw [Cosmo.getDosArgv_mkntcmdline hc drives native _ _ hnul hargs hsize, List.map_map]
  clear hsize hargs hnul
  induction hus with
  | nil => simp
  | @cons t u argv us hu _ ih =>
    have ih := ih fun t' ht' => hm t' (by simp [ht'])
    have h₁ := Cosmo.moved_expected_iff (hm t (by simp)) hu
    simp only [List.map_cons, List.cons.injEq, List.forall_mem_cons, Function.comp_apply, h₁, ih, hu]

/-- Two, three and four byte sequences, six bits a byte; `/c/a/b` becomes `c:\a\b`. -/
def cosmo : Cosmo where
  thomPikeLen b := if b < 0xE0 then 2 else if b < 0xF0 then 3 else 4
  thomPikeByte b := if b < 0xE0 then b % 0x20 else if b < 0xF0 then b % 0x10 else b % 8
  thomPikeMerge x y := x * 0x40 + y % 0x40
  encodeUtf16 x :=
    if x < 0x10000 then x
    else (0xDC00 + (x - 0x10000) % 0x400) * 0x10000 + (0xD800 + (x - 0x10000) / 0x400)
  mungentpath
    | _ :: x :: _ :: rest => x :: 0x3A :: 0x5C :: rest.map fun b => if b = 0x2F then 0x5C else b
    | s => s
  pathMax := 1024

theorem cosmo_documented : cosmo.Documented where
  utf16 _ := rfl
  thomPike {x b rest} hb he := by
    have hlt := toNat_lt x
    have hval : x.val.toNat = x.toNat := rfl
    unfold String.utf8EncodeChar at he
    simp only [hval] at he
    split at he
    · cases he
      rw [UInt8.toNat_ofNat'] at hb
      omega
    · split at he
      · cases he
        simp only [cosmo, UInt8.toNat_ofNat', List.foldl_cons, List.foldl_nil, List.length_singleton]
        rw [if_pos (by omega), if_pos (by omega)]
        omega
      · split at he
        · cases he
          simp only [cosmo, UInt8.toNat_ofNat', List.foldl_cons, List.foldl_nil, List.length_cons,
            List.length_nil]
          rw [if_neg (by omega), if_pos (by omega), if_neg (by omega), if_pos (by omega)]
          omega
        · cases he
          simp only [cosmo, UInt8.toNat_ofNat', List.foldl_cons, List.foldl_nil, List.length_cons,
            List.length_nil]
          rw [if_neg (by omega), if_neg (by omega), if_neg (by omega), if_neg (by omega)]
          omega

/-- `/c/a b`, a backslash at the end, a lone quote, and the empty string. -/
def sampleArgv : List Text :=
  [⟨['/', 'c', '/', 'a', ' ', 'b'], by decide⟩, ⟨['x', ' ', '\\'], by decide⟩, ⟨['"'], by decide⟩,
    ⟨[], by decide⟩]

theorem cmdline_round_trip_iff_sample :
    getDosArgv (cosmo.mkntcmdline 4#32 (sampleArgv.map Text.bytes) 64 true).1 =
      [utf8 ['c', ':', '\\', 'a', ' ', 'b'], utf8 ['x', ' ', '\\'], utf8 ['"'], []] := by
  have hm : ∀ t ∈ sampleArgv, cosmo.Munges t := by
    intro t ht hlooks
    simp only [sampleArgv, List.mem_cons, List.not_mem_nil, or_false] at ht
    rcases ht with rfl | rfl | rfl | rfl
    · exact ⟨⟨['c', ':', '\\', 'a', ' ', 'b'], by decide⟩, by decide, by decide⟩
    · exact absurd hlooks (by decide)
    · exact absurd hlooks (by decide)
    · exact absurd hlooks (by decide)
  exact (cmdline_round_trip_iff cosmo_documented hm (by decide)).mpr (by decide)

/-- The argument `a\"b` comes back as `a"\b`. -/
theorem backslash_moves_behind_quote :
    getDosArgv (cosmo.mkntcmdline 4#32 [utf8 ['a', '\\', '"', 'b']] 64 true).1 =
        [utf8 ['a', '"', '\\', 'b']] ∧
      getDosArgv (cosmo.mkntcmdline 4#32 [utf8 ['a', '\\', '"', 'b']] 64 true).1 ≠
        [cosmo.expected 4#32 true (utf8 ['a', '\\', '"', 'b'])] := by
  decide

end ApeShim.Nt
