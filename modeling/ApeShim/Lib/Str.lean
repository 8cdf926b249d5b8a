import Mathlib

/-!
Rust's `str`, of which a text is the list of its characters: trimming, splitting, and the reading of
an `i64`.
-/

namespace Str

abbrev Text := List Char

/-- A statement about every character of a text is decided by looking at those. -/
instance (priority := high) (t : Text) (p : Char → Prop) [DecidablePred p] :
    Decidable (∀ c ∈ t, p c) := List.decidableBAll p t

/-! ## Blanks -/

/-- `char::is_whitespace` -/
def isWhite (c : Char) : Bool :=
  (9 ≤ c.toNat && c.toNat ≤ 13) || c.toNat == 0x20 || c.toNat == 0x85 || c.toNat == 0xa0 ||
    c.toNat == 0x1680 || (0x2000 ≤ c.toNat && c.toNat ≤ 0x200a) || c.toNat == 0x2028 ||
    c.toNat == 0x2029 || c.toNat == 0x202f || c.toNat == 0x205f || c.toNat == 0x3000

def trimEnd (t : Text) : Text := t.rdropWhile isWhite

def trim (t : Text) : Text := trimEnd (t.dropWhile isWhite)

def Blank (b : Text) : Prop := ∀ c ∈ b, isWhite c = true

/-- A text that has nothing to trim. -/
structure Solid (t : Text) : Prop where
  first : ∃ c s, t = c :: s ∧ isWhite c = false
  last : ∃ c s, t = s ++ [c] ∧ isWhite c = false

variable {b s t : Text}

theorem Blank.not_mem {c : Char} (h : Blank b) (hc : isWhite c = false) : c ∉ b := fun hmem => by
  rw [h c hmem] at hc
  cases hc

theorem dropWhile_blank (h : Blank b) (t : Text) :
    (b ++ t).dropWhile isWhite = t.dropWhile isWhite := by
  induction b with
  | nil => rfl
  | cons c b ih =>
    rw [List.cons_append, List.dropWhile_cons_of_pos (h c List.mem_cons_self)]
    exact ih fun x hx => h x (List.mem_cons_of_mem _ hx)

theorem trimEnd_blank (h : Blank b) (t : Text) : trimEnd (t ++ b) = trimEnd t := by
  induction b using List.reverseRecOn with
  | nil => rw [List.append_nil]
  | append_singleton b c ih =>
    rw [trimEnd, ← List.append_assoc,
      List.rdropWhile_concat_pos _ _ _ (h c (List.mem_append_right _ List.mem_cons_self))]
    exact ih fun x hx => h x (List.mem_append_left _ hx)

theorem trimEnd_last {c : Char} (h : isWhite c = false) (t : Text) :
    trimEnd (t ++ [c]) = t ++ [c] :=
  List.rdropWhile_concat_neg _ _ _ (by rw [h]; exact Bool.false_ne_true)

/-- What stands before a character that stays, stays. -/
theorem trimEnd_keep {c : Char} (h : isWhite c = false) (s t : Text) :
    trimEnd (s ++ c :: t) = s ++ c :: trimEnd t := by
  induction t using List.reverseRecOn with
  | nil => exact trimEnd_last h s
  | append_singleton t x ih =>
    cases hx : isWhite x with
    | true =>
      have hb : Blank [x] := fun y hy => List.mem_singleton.mp hy ▸ hx
      rw [← List.cons_append, ← List.append_assoc, trimEnd_blank hb, trimEnd_blank hb, ih]
    | false =>
      rw [trimEnd_last hx, ← List.cons_append, ← List.append_assoc, trimEnd_last hx]

theorem trim_blank_left (h : Blank b) (t : Text) : trim (b ++ t) = trim t := by
  rw [trim, dropWhile_blank h, trim]

theorem trim_blank_right (h : Blank b) (t : Text) : trim (t ++ b) = trim t := by
  induction t with
  | nil =>
    rw [List.nil_append, ← List.append_nil b, trim_blank_left h]
  | cons c t ih =>
    cases hc : isWhite c with
    | true =>
      have hb : Blank [c] := fun y hy => List.mem_singleton.mp hy ▸ hc
      have hl := trim_blank_left hb
      exact (hl (t ++ b)).trans (ih.trans (hl t).symm)
    | false =>
      have hkeep : ∀ r, (c :: r).dropWhile isWhite = c :: r := fun r =>
        List.dropWhile_cons_of_neg (by rw [hc]; exact Bool.false_ne_true)
      rw [List.cons_append, trim, hkeep, trim, hkeep, ← List.cons_append, trimEnd_blank h]

/-- So does what stands between two of them. -/
theorem trim_keep {c x : Char} (hc : isWhite c = false) (hx : isWhite x = false) (s t : Text) :
    trim (c :: s ++ x :: t) = c :: s ++ x :: trimEnd t := by
  rw [trim, List.cons_append, List.dropWhile_cons_of_neg (by rw [hc]; exact Bool.false_ne_true),
    ← List.cons_append, trimEnd_keep hx]

/-- A text is what is left of it at its end, and blanks. -/
theorem exists_trimEnd (t : Text) : ∃ b, Blank b ∧ t = trimEnd t ++ b :=
  ⟨t.rtakeWhile isWhite, fun _ => List.mem_rtakeWhile_imp, (t.rdropWhile_append_rtakeWhile).symm⟩

theorem Solid.trim (h : Solid t) : trim t = t := by
  obtain ⟨c, s, rfl, hc⟩ := h.first
  rw [Str.trim, List.dropWhile_cons_of_neg (by rw [hc]; exact Bool.false_ne_true)]
  obtain ⟨x, r, hr, hx⟩ := h.last
  rw [hr, trimEnd_last hx]

theorem Solid.of_word (hne : t ≠ []) (h : ∀ c ∈ t, isWhite c = false) : Solid t := by
  refine ⟨?_, t.getLast hne, t.dropLast, (List.dropLast_append_getLast hne).symm,
    h _ (List.getLast_mem hne)⟩
  cases t with
  | nil => exact absurd rfl hne
  | cons c s => exact ⟨c, s, rfl, h c List.mem_cons_self⟩

theorem Solid.join {m : Text} (hs : Solid s) (ht : Solid t) : Solid (s ++ m ++ t) := by
  obtain ⟨c, s', rfl, hc⟩ := hs.first
  obtain ⟨x, t', rfl, hx⟩ := ht.last
  exact ⟨⟨c, s' ++ m ++ (t' ++ [x]), by simp, hc⟩, ⟨x, c :: s' ++ m ++ t', by simp, hx⟩⟩

/-! ## Splitting -/

/-- `str::split_once` -/
def splitOnce (c : Char) (t : Text) : Option (Text × Text) :=
  if c ∈ t then some (t.takeWhile (· ≠ c), (t.dropWhile (· ≠ c)).tail) else none

theorem splitOnce_none {c : Char} (h : c ∉ t) : splitOnce c t = none := if_neg h

theorem splitOnce_append {c : Char} (h : c ∉ s) (t : Text) :
    splitOnce c (s ++ c :: t) = some (s, t) := by
  have hs : ∀ x ∈ s, decide (x ≠ c) = true := fun x hx =>
    decide_eq_true fun heq => h (heq ▸ hx)
  rw [splitOnce, if_pos (List.mem_append_right _ List.mem_cons_self),
    List.takeWhile_append_of_pos hs, List.dropWhile_append_of_pos hs]
  simp

/-- A prefix with no such character ends before the first one. -/
theorem prefix_of_not_mem {c : Char} {p : Text} (hp : p <+: s ++ c :: t) (h : c ∉ p) : p <+: s := by
  obtain hle | hlt := le_or_gt p.length s.length
  · exact List.prefix_of_prefix_length_le hp (List.prefix_append _ _) hle
  · obtain ⟨q, rfl⟩ := List.prefix_of_prefix_length_le (List.prefix_append s _) hp (by omega)
    cases q with
    | nil => simp at hlt
    | cons x q =>
      have hx := (List.prefix_append_right_inj s).mp hp
      rw [List.cons_prefix_cons] at hx
      exact absurd (hx.1 ▸ List.mem_append_right _ List.mem_cons_self) h

/-- What a prefix has before its last character, when that is not in the first part. -/
theorem prefix_concat {c : Char} {p : Text} (hp : p ++ [c] <+: s ++ t) (h : c ∉ s) :
    ∃ q, p = s ++ q ∧ q ++ [c] <+: t := by
  obtain hle | hlt := le_or_gt s.length p.length
  · have hs : s <+: p ++ [c] :=
      List.prefix_of_prefix_length_le (List.prefix_append s t) hp (by simp; omega)
    obtain hs | hs := List.prefix_concat_iff.mp hs
    · exact absurd (hs ▸ List.mem_append_right _ List.mem_cons_self) h
    · obtain ⟨q, rfl⟩ := hs
      rw [List.append_assoc] at hp
      exact ⟨q, rfl, (List.prefix_append_right_inj s).mp hp⟩
  · have hs : p ++ [c] <+: s :=
      List.prefix_of_prefix_length_le hp (List.prefix_append s t) (by simp; omega)
    exact absurd (hs.subset (List.mem_append_right _ List.mem_cons_self)) h

/-- What a prefix has before its last character, which is the last of its kind. -/
theorem prefix_before {c : Char} {p r : Text} (hp : p ++ [c] <+: s ++ c :: r) (h : c ∉ r) :
    p <+: s := by
  obtain hle | hlt := le_or_gt p.length s.length
  · exact List.prefix_of_prefix_length_le ((List.prefix_append p [c]).trans hp)
      (List.prefix_append s _) hle
  · have hfirst : s ++ [c] <+: s ++ c :: r := ⟨r, by simp⟩
    have hs : s ++ [c] <+: p :=
      List.prefix_of_prefix_length_le hfirst ((List.prefix_append p [c]).trans hp) (by simp; omega)
    obtain ⟨q, rfl⟩ := hs
    rw [List.append_assoc, List.append_assoc, List.prefix_append_right_inj, List.singleton_append,
      List.cons_prefix_cons] at hp
    exact absurd (hp.2.subset (List.mem_append_right _ List.mem_cons_self)) h

/-! ## Numbers -/

/-- The digit a character is, in a radix that is large enough. -/
def digitVal (c : Char) : Nat :=
  if c.isDigit then c.toNat - 48
  else if c.isLower then c.toNat - 87
  else if c.isUpper then c.toNat - 55
  else 36

/-- `char::is_digit` -/
def isRadix (radix : Nat) (c : Char) : Bool := digitVal c < radix

def numeral (radix : Nat) (ds : List Nat) : Nat := ds.foldl (fun n d => n * radix + d) 0

/-- An unsigned number, if it is one. -/
def digits (radix : Nat) (t : Text) : Option Nat :=
  if t ≠ [] ∧ t.all (isRadix radix) then some (numeral radix (t.map digitVal)) else none

/-- `i64::from_str_radix` -/
def fromStrRadix (radix : Nat) : Text → Option (BitVec 64)
  | '-' :: t => (digits radix t).bind fun n =>
    if n ≤ 2 ^ 63 then some (BitVec.ofInt 64 (-n)) else none
  | '+' :: t => (digits radix t).bind fun n =>
    if n < 2 ^ 63 then some (BitVec.ofNat 64 n) else none
  | t => (digits radix t).bind fun n => if n < 2 ^ 63 then some (BitVec.ofNat 64 n) else none

example : fromStrRadix 16 "-fF".toList = some (-255) := by decide

theorem isAlphanum_code {c : Char} (h : c.isAlphanum = true) : (48 ≤ c.toNat ∧ c.toNat ≤ 57) ∨
    (65 ≤ c.toNat ∧ c.toNat ≤ 90) ∨ (97 ≤ c.toNat ∧ c.toNat ≤ 122) := by
  simp only [Char.isAlphanum, Char.isAlpha, Char.isUpper, Char.isLower, Char.isDigit,
    Bool.or_eq_true, Bool.and_eq_true, decide_eq_true_eq, ge_iff_le, UInt32.le_iff_toNat_le] at h
  simpa [or_assoc, or_comm, or_left_comm] using h

theorem not_white_of_isAlphanum {c : Char} (h : c.isAlphanum = true) : isWhite c = false := by
  have hcode := isAlphanum_code h
  simp [isWhite]
  omega

theorem digitVal_isAlphanum {c : Char} (h : digitVal c < 36) : c.isAlphanum = true := by
  unfold digitVal at h
  rw [Char.isAlphanum, Char.isAlpha]
  split at h
  · next hd => rw [hd, Bool.or_true]
  · split at h
    · next hl => rw [hl, Bool.or_true, Bool.true_or]
    · split at h
      · next hu => rw [hu, Bool.true_or, Bool.true_or]
      · exact absurd h (lt_irrefl 36)

theorem digits_some {radix n : Nat} (h : digits radix t = some n) :
    t ≠ [] ∧ (∀ c ∈ t, digitVal c < radix) ∧ n = numeral radix (t.map digitVal) := by
  rw [digits] at h
  split at h
  · next hd =>
    refine ⟨hd.1, fun c hc => ?_, (Option.some.inj h).symm⟩
    exact of_decide_eq_true (List.all_eq_true.mp hd.2 c hc)
  · cases h

theorem digits_none {radix : Nat} {c : Char} (hc : c ∈ t) (h : radix ≤ digitVal c) :
    digits radix t = none := by
  refine if_neg fun hd => ?_
  have := of_decide_eq_true (List.all_eq_true.mp hd.2 c hc)
  omega

/-- The characters that the text of a number may have. -/
def isNumeric (c : Char) : Bool := c == '-' || c == '+' || c.isAlphanum

theorem fromStrRadix_numeric {radix : Nat} {v : BitVec 64} (hr : radix ≤ 36)
    (h : fromStrRadix radix t = some v) : ∀ c ∈ t, isNumeric c = true := by
  have hall : ∀ {s n}, digits radix s = some n → ∀ c ∈ s, isNumeric c = true := by
    intro s n hs c hc
    have hlt := (digits_some hs).2.1 c hc
    rw [isNumeric, digitVal_isAlphanum (lt_of_lt_of_le hlt hr), Bool.or_true]
  unfold fromStrRadix at h
  split at h <;> obtain ⟨n, hn, -⟩ := Option.bind_eq_some_iff.mp h
  · exact List.forall_mem_cons.mpr ⟨rfl, hall hn⟩
  · exact List.forall_mem_cons.mpr ⟨rfl, hall hn⟩
  · exact hall hn

/-- A text with no sign is read as its digits. -/
theorem fromStrRadix_unsigned {radix : Nat} {c : Char} (hc : c.isAlphanum = true) (t : Text) :
    fromStrRadix radix (c :: t) = (digits radix (c :: t)).bind fun n =>
      if n < 2 ^ 63 then some (BitVec.ofNat 64 n) else none := by
  unfold fromStrRadix
  split
  · next heq =>
    rw [(List.cons.inj heq).1] at hc
    exact absurd hc (by decide)
  · next heq =>
    rw [(List.cons.inj heq).1] at hc
    exact absurd hc (by decide)
  · rfl

theorem fromStrRadix_valid {radix : Nat} (hr : radix ≤ 36) (hne : t ≠ [])
    (h : ∀ c ∈ t, digitVal c < radix) : fromStrRadix radix t =
      if numeral radix (t.map digitVal) < 2 ^ 63 then
        some (BitVec.ofNat 64 (numeral radix (t.map digitVal))) else none := by
  obtain ⟨c, s, rfl⟩ := List.exists_cons_of_ne_nil hne
  have hc := h c List.mem_cons_self
  have hall : (c :: s).all (isRadix radix) = true :=
    List.all_eq_true.mpr fun x hx => decide_eq_true (h x hx)
  rw [fromStrRadix_unsigned (digitVal_isAlphanum (by omega)), digits, if_pos ⟨hne, hall⟩]
  rfl

theorem fromStrRadix_invalid {radix : Nat} {c x : Char} (hc : c.isAlphanum = true) (hx : x ∈ c :: t)
    (h : radix ≤ digitVal x) : fromStrRadix radix (c :: t) = none := by
  rw [fromStrRadix_unsigned hc, digits_none hx h]
  rfl

end Str
