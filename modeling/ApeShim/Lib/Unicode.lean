import Mathlib.Data.List.Basic
import Mathlib.Data.List.Infix

/-!
UTF-8 and UTF-16 as lists of bytes and of units. The UTF-8 encoding of one
character is the core library's; what is added is the shape of its bytes, and
UTF-16 with its reading back.
-/

namespace Unicode

/-! ## UTF-8 -/

def utf8 (cs : List Char) : List UInt8 := cs.flatMap String.utf8EncodeChar

@[simp] theorem utf8_nil : utf8 [] = [] := rfl

theorem utf8_cons (c : Char) (cs : List Char) :
    utf8 (c :: cs) = String.utf8EncodeChar c ++ utf8 cs := rfl

theorem toNat_byte {c : Char} (h : c.toNat < 0x80) : (UInt8.ofNat c.toNat).toNat = c.toNat := by
  rw [UInt8.toNat_ofNat']
  omega

theorem utf8EncodeChar_ascii {c : Char} (h : c.toNat < 0x80) :
    String.utf8EncodeChar c = [UInt8.ofNat c.toNat] := by
  unfold String.utf8EncodeChar
  exact if_pos (by
    show c.toNat ≤ 0x7f
    omega)

theorem utf8_injective : Function.Injective utf8 := by
  intro cs ds h
  have hs : String.ofList cs = String.ofList ds := by
    apply String.toByteArray_inj.mp
    rw [String.toByteArray_ofList, String.toByteArray_ofList]
    exact congrArg List.toByteArray h
  simpa using congrArg String.toList hs

theorem toNat_lt (c : Char) : c.toNat < 0x110000 := by
  have := c.valid
  simp only [UInt32.isValidChar, Nat.isValidChar] at this
  simp only [Char.toNat]
  omega

theorem not_surrogate (c : Char) : ¬ (0xD800 ≤ c.toNat ∧ c.toNat < 0xE000) := by
  have := c.valid
  simp only [UInt32.isValidChar, Nat.isValidChar] at this
  simp only [Char.toNat]
  omega

/-- A byte that follows the lead. -/
def IsCont (x : UInt8) : Prop := 0x80 ≤ x.toNat ∧ x.toNat < 0xC0

theorem isCont_ofNat (n : Nat) : IsCont (UInt8.ofNat (n % 0x40 + 0x80)) := by
  unfold IsCont
  rw [UInt8.toNat_ofNat']
  omega

/-- The bytes of a character past ASCII: a lead that tells their number, and what
follows it. -/
theorem utf8EncodeChar_wide {c : Char} (h : 0x80 ≤ c.toNat) :
    ∃ b rest, String.utf8EncodeChar c = b :: rest ∧ 0xC0 ≤ b.toNat ∧ ∀ x ∈ rest, IsCont x := by
  have hval : c.val.toNat = c.toNat := rfl
  unfold String.utf8EncodeChar
  simp only [hval]
  split
  · omega
  · split
    · refine ⟨_, _, rfl, ?_, ?_⟩
      · rw [UInt8.toNat_ofNat']
        omega
      · simp only [List.forall_mem_singleton, isCont_ofNat]
    · split
      · refine ⟨_, _, rfl, ?_, ?_⟩
        · rw [UInt8.toNat_ofNat']
          omega
        · simp only [List.forall_mem_cons, isCont_ofNat, List.not_mem_nil, false_implies, implies_true,
            and_self]
      · refine ⟨_, _, rfl, ?_, ?_⟩
        · rw [UInt8.toNat_ofNat']
          omega
        · simp only [List.forall_mem_cons, isCont_ofNat, List.not_mem_nil, false_implies, implies_true,
            and_self]

/-- A byte below 0x80 of an encoded character is the character. -/
theorem mem_utf8EncodeChar {c : Char} {b : UInt8} (hb : b.toNat < 0x80)
    (h : b ∈ String.utf8EncodeChar c) : c.toNat = b.toNat := by
  by_cases hc : c.toNat < 0x80
  · rw [utf8EncodeChar_ascii hc, List.mem_singleton] at h
    rw [h, toNat_byte hc]
  · obtain ⟨x, rest, he, hx, hrest⟩ := utf8EncodeChar_wide (not_lt.mp hc)
    rw [he] at h
    rcases List.mem_cons.mp h with rfl | h
    · omega
    · have := (hrest b h).1
      omega

/-- An ASCII character is in the text exactly when its byte is in the bytes. -/
theorem mem_utf8 {a : Char} (ha : a.toNat < 0x80) {cs : List Char} :
    UInt8.ofNat a.toNat ∈ utf8 cs ↔ a ∈ cs := by
  have hb := toNat_byte ha
  constructor
  · intro h
    obtain ⟨c, hc, hmem⟩ := List.mem_flatMap.mp h
    have := mem_utf8EncodeChar (by omega) hmem
    rw [hb] at this
    rwa [← Char.toNat_inj.mp this]
  · intro h
    exact List.mem_flatMap.mpr ⟨a, h, by simp [utf8EncodeChar_ascii ha]⟩

theorem length_le_utf8 (cs : List Char) : cs.length ≤ (utf8 cs).length := by
  induction cs with
  | nil => exact Nat.le_refl 0
  | cons c cs ih =>
    rw [utf8_cons, List.length_append, String.length_utf8EncodeChar, List.length_cons]
    have := c.utf8Size_pos
    omega

/-! ### Two ASCII characters in a row -/

/-- A list without the first of the two does not matter to where they stand. -/
theorem pair_infix_append {α : Type*} {x y : α} {l : List α} (h : x ∉ l) (m : List α) :
    [x, y] <:+: l ++ m ↔ [x, y] <:+: m := by
  induction l with
  | nil => rfl
  | cons z l ih =>
    simp only [List.mem_cons, not_or] at h
    rw [List.cons_append, List.infix_cons_iff, ih h.2]
    constructor
    · rintro (hp | hi)
      · exact absurd (List.cons_prefix_cons.mp hp).1 h.1
      · exact hi
    · exact Or.inr

theorem head_utf8 {b : Char} (hb : b.toNat < 0x80) (cs : List Char) :
    [UInt8.ofNat b.toNat] <+: utf8 cs ↔ [b] <+: cs := by
  cases cs with
  | nil => simp
  | cons c cs =>
    rw [utf8_cons]
    constructor
    · intro h
      cases he : String.utf8EncodeChar c with
      | nil => exact absurd he String.utf8EncodeChar_ne_nil
      | cons x rest =>
        rw [he, List.cons_append] at h
        have hx := (List.cons_prefix_cons.mp h).1
        have hval := toNat_byte hb
        have hmem : UInt8.ofNat b.toNat ∈ String.utf8EncodeChar c := by simp [he, hx]
        have := mem_utf8EncodeChar (by omega) hmem
        rw [hval] at this
        rw [Char.toNat_inj.mp this]
        simp
    · intro h
      obtain ⟨rfl, -⟩ := List.cons_prefix_cons.mp h
      rw [utf8EncodeChar_ascii hb]
      simp

/-- Two ASCII characters stand next to each other in the text exactly when their
bytes do in the bytes. -/
theorem pair_infix_utf8 {a b : Char} (ha : a.toNat < 0x80) (hb : b.toNat < 0x80) (cs : List Char) :
    [UInt8.ofNat a.toNat, UInt8.ofNat b.toNat] <:+: utf8 cs ↔ [a, b] <:+: cs := by
  induction cs with
  | nil => simp
  | cons c cs ih =>
    rw [utf8_cons]
    by_cases hc : a = c
    · subst hc
      rw [utf8EncodeChar_ascii ha, List.singleton_append, List.infix_cons_iff, List.infix_cons_iff,
        List.cons_prefix_cons, List.cons_prefix_cons, ih, head_utf8 hb]
      simp
    · have hnot : UInt8.ofNat a.toNat ∉ String.utf8EncodeChar c := by
        intro hmem
        have hval := toNat_byte ha
        have := mem_utf8EncodeChar (by omega) hmem
        rw [hval] at this
        exact hc (Char.toNat_inj.mp this).symm
      rw [pair_infix_append hnot, ih, List.infix_cons_iff, List.cons_prefix_cons]
      simp [hc]

/-! ## UTF-16 -/

def utf16EncodeChar (c : Char) : List UInt16 :=
  if c.toNat < 0x10000 then [UInt16.ofNat c.toNat]
  else [UInt16.ofNat (0xD800 + (c.toNat - 0x10000) / 0x400),
    UInt16.ofNat (0xDC00 + (c.toNat - 0x10000) % 0x400)]

def utf16 (cs : List Char) : List UInt16 := cs.flatMap utf16EncodeChar

/-- The reading of UTF-16; a surrogate without its other half reads as U+FFFD. -/
def utf16Decode : List UInt16 → List Char
  | [] => []
  | [u] => [if 0xD800 ≤ u.toNat ∧ u.toNat < 0xE000 then Char.ofNat 0xFFFD else Char.ofNat u.toNat]
  | u :: v :: rest =>
      if 0xD800 ≤ u.toNat ∧ u.toNat < 0xDC00 ∧ 0xDC00 ≤ v.toNat ∧ v.toNat < 0xE000 then
        Char.ofNat (0x10000 + (u.toNat - 0xD800) * 0x400 + (v.toNat - 0xDC00)) :: utf16Decode rest
      else if 0xD800 ≤ u.toNat ∧ u.toNat < 0xE000 then Char.ofNat 0xFFFD :: utf16Decode (v :: rest)
      else Char.ofNat u.toNat :: utf16Decode (v :: rest)

theorem toNat_unit {c : Char} (h : c.toNat < 0x10000) : (UInt16.ofNat c.toNat).toNat = c.toNat := by
  rw [UInt16.toNat_ofNat']
  omega

/-- The units of a character past the first plane. -/
theorem toNat_high (c : Char) : (UInt16.ofNat (0xD800 + (c.toNat - 0x10000) / 0x400)).toNat =
    0xD800 + (c.toNat - 0x10000) / 0x400 := by
  have := toNat_lt c
  rw [UInt16.toNat_ofNat']
  omega

theorem toNat_low (c : Char) : (UInt16.ofNat (0xDC00 + (c.toNat - 0x10000) % 0x400)).toNat =
    0xDC00 + (c.toNat - 0x10000) % 0x400 := by
  rw [UInt16.toNat_ofNat']
  omega

theorem utf16_cons (c : Char) (cs : List Char) :
    utf16 (c :: cs) = utf16EncodeChar c ++ utf16 cs := rfl

@[simp] theorem utf16_append (cs ds : List Char) : utf16 (cs ++ ds) = utf16 cs ++ utf16 ds :=
  List.flatMap_append

/-- A unit that is no surrogate stands for itself. -/
theorem utf16Decode_unit {u : UInt16} (h : ¬ (0xD800 ≤ u.toNat ∧ u.toNat < 0xE000))
    (rest : List UInt16) : utf16Decode (u :: rest) = Char.ofNat u.toNat :: utf16Decode rest := by
  cases rest with
  | nil => simp only [utf16Decode, if_neg h]
  | cons v rest =>
    have hpair : ¬ (0xD800 ≤ u.toNat ∧ u.toNat < 0xDC00 ∧ 0xDC00 ≤ v.toNat ∧ v.toNat < 0xE000) := by
      omega
    simp only [utf16Decode, if_neg h, if_neg hpair]

theorem utf16Decode_encodeChar (c : Char) (rest : List UInt16) :
    utf16Decode (utf16EncodeChar c ++ rest) = c :: utf16Decode rest := by
  have hlt := toNat_lt c
  have hns := not_surrogate c
  unfold utf16EncodeChar
  split
  · rename_i hc
    have hu := toNat_unit hc
    rw [List.singleton_append, utf16Decode_unit (by omega), hu, Char.ofNat_toNat]
  · rename_i hc
    have hu := toNat_high c
    have hv := toNat_low c
    have hval : 0x10000 + (0xD800 + (c.toNat - 0x10000) / 0x400 - 0xD800) * 0x400 +
        (0xDC00 + (c.toNat - 0x10000) % 0x400 - 0xDC00) = c.toNat := by omega
    simp only [List.cons_append, List.nil_append, utf16Decode, hu, hv]
    rw [if_pos (by omega), hval, Char.ofNat_toNat]

/-- **Reading back.** -/
theorem utf16Decode_utf16 (cs : List Char) : utf16Decode (utf16 cs) = cs := by
  induction cs with
  | nil => rfl
  | cons c cs ih => rw [utf16_cons, utf16Decode_encodeChar, ih]

/-! ## Units that need not be UTF-16 -/

def isHigh (u : UInt16) : Bool := 0xD800 ≤ u.toNat && u.toNat < 0xDC00

def isLow (u : UInt16) : Bool := 0xDC00 ≤ u.toNat && u.toNat < 0xE000

/-- The code points of 16-bit units; a surrogate without its other half is one itself. -/
def points : List UInt16 → List Nat
  | [] => []
  | [u] => [u.toNat]
  | u :: v :: rest =>
    if isHigh u ∧ isLow v then
      (0x10000 + (u.toNat - 0xD800) * 0x400 + (v.toNat - 0xDC00)) :: points rest
    else u.toNat :: points (v :: rest)

/-- UTF-8, where a surrogate has the three bytes that its number would have. -/
def wtf8Point (n : Nat) : List UInt8 :=
  if n.isValidChar then String.utf8EncodeChar (Char.ofNat n)
  else [0xED, UInt8.ofNat (0x80 + n / 64 % 64), UInt8.ofNat (0x80 + n % 64)]

def wtf8 (units : List UInt16) : List UInt8 := (points units).flatMap wtf8Point

@[simp] theorem wtf8_nil : wtf8 [] = [] := rfl

theorem wtf8_pair {u v : UInt16} (hu : isHigh u = true) (hv : isLow v = true)
    (rest : List UInt16) : wtf8 (u :: v :: rest) = wtf8 [u, v] ++ wtf8 rest := by
  simp [wtf8, points, hu, hv]

theorem wtf8_lone {u v : UInt16} (h : ¬ (isHigh u = true ∧ isLow v = true)) (rest : List UInt16) :
    wtf8 (u :: v :: rest) = wtf8 [u] ++ wtf8 (v :: rest) := by
  simp [wtf8, points, h]

/-- A unit that begins no pair stands for itself. -/
theorem wtf8_unit {u : UInt16} (h : isHigh u = false) (rest : List UInt16) :
    wtf8 (u :: rest) = wtf8 [u] ++ wtf8 rest := by
  cases rest with
  | nil => simp
  | cons v rest => exact wtf8_lone (by simp [h]) rest

theorem points_encodeChar (c : Char) (rest : List UInt16) :
    points (utf16EncodeChar c ++ rest) = c.toNat :: points rest := by
  have hlt := toNat_lt c
  have hns := not_surrogate c
  unfold utf16EncodeChar
  split
  · rename_i hc
    have hu := toNat_unit hc
    have hhigh : isHigh (UInt16.ofNat c.toNat) = false := by
      rw [isHigh, hu, Bool.and_eq_false_iff, decide_eq_false_iff_not, decide_eq_false_iff_not]
      omega
    cases rest with
    | nil => simp [points, hu]
    | cons v rest => simp [points, hu, hhigh]
  · rename_i hc
    have hu := toNat_high c
    have hv := toNat_low c
    have hpair : isHigh (UInt16.ofNat (0xD800 + (c.toNat - 0x10000) / 0x400)) = true ∧
        isLow (UInt16.ofNat (0xDC00 + (c.toNat - 0x10000) % 0x400)) = true := by
      simp only [isHigh, isLow, hu, hv, Bool.and_eq_true, decide_eq_true_eq]
      omega
    have hval : 0x10000 + (0xD800 + (c.toNat - 0x10000) / 0x400 - 0xD800) * 0x400 +
        (0xDC00 + (c.toNat - 0x10000) % 0x400 - 0xDC00) = c.toNat := by omega
    rw [List.cons_append, List.cons_append, List.nil_append, points, if_pos hpair, hu, hv, hval]

/-- On UTF-16 it is UTF-8. -/
theorem wtf8_utf16 (cs : List Char) : wtf8 (utf16 cs) = utf8 cs := by
  induction cs with
  | nil => rfl
  | cons c cs ih =>
    have hvalid : c.toNat.isValidChar := c.valid
    rw [utf16_cons, wtf8, points_encodeChar, List.flatMap_cons, wtf8Point, if_pos hvalid,
      Char.ofNat_toNat, ← wtf8, ih, utf8_cons]

theorem zero_notMem_utf16 {cs : List Char} (h : '\x00' ∉ cs) : 0 ∉ utf16 cs := by
  intro hmem
  obtain ⟨c, hc, hu⟩ := List.mem_flatMap.mp hmem
  have hlt := toNat_lt c
  unfold utf16EncodeChar at hu
  split at hu
  · rename_i hsmall
    rw [List.mem_singleton] at hu
    have := congrArg UInt16.toNat hu
    rw [UInt16.toNat_ofNat'] at this
    have hz : c.toNat = 0 := by
      simp only [UInt16.toNat_zero] at this
      omega
    have : c = '\x00' := Char.toNat_inj.mp hz
    exact h (this ▸ hc)
  · simp only [List.mem_cons, List.not_mem_nil, or_false] at hu
    rcases hu with hu | hu
    · have := congrArg UInt16.toNat hu
      rw [UInt16.toNat_ofNat', UInt16.toNat_zero] at this
      omega
    · have := congrArg UInt16.toNat hu
      rw [UInt16.toNat_ofNat', UInt16.toNat_zero] at this
      omega

end Unicode
