import ApeShim.GenShim.Reading

/-!
Where the value that `eval` returns is the one that the Rust expression denotes.
-/

namespace ApeShim.GenShim
open Str

/-! ## Integer types -/

theorem Width.bits_pos (w : Width) : 0 < w.bits := by cases w <;> decide

theorem Width.bits_le (w : Width) : w.bits ≤ 128 := by cases w <;> decide

theorem Ty.wrap_of_holds {T : Ty} {n : Int} (h : T.Holds n) : T.wrap n = n := by
  rw [Ty.Holds] at h
  rw [Ty.wrap, Ty.read]
  split at h
  · next hs =>
    rw [if_pos hs]
    exact BitVec.toInt_ofInt_eq_self T.width.bits_pos h.1 h.2
  · next hs =>
    have hlt : n < ((2 ^ T.bits : Nat) : Int) := by
      rw [Int.natCast_pow]
      exact h.2
    rw [if_neg hs, BitVec.toNat_ofInt, Int.emod_eq_of_lt h.1 hlt, Int.toNat_of_nonneg h.1]

theorem Ty.read_holds (T : Ty) (x : BitVec T.bits) : T.Holds (T.read x) := by
  rw [Ty.Holds, Ty.read]
  split
  · exact ⟨BitVec.le_toInt x, BitVec.toInt_lt⟩
  · refine ⟨Int.natCast_nonneg _, ?_⟩
    have hlt := Int.ofNat_lt.mpr x.isLt
    rwa [Int.natCast_pow] at hlt

/-- The bits of a number of the type, in a register that is wider than any type. -/
def Ty.extend (T : Ty) (x : BitVec T.bits) : BitVec 192 :=
  if T.signed then x.signExtend 192 else x.setWidth 192

theorem Ty.extend_toInt (T : Ty) (x : BitVec T.bits) : (T.extend x).toInt = T.read x := by
  have hle : T.bits ≤ 128 := T.width.bits_le
  rw [Ty.extend, Ty.read]
  split
  · exact BitVec.toInt_signExtend_of_le (by omega)
  · have hlt : x.toNat < 2 ^ 128 :=
      lt_of_lt_of_le x.isLt (Nat.pow_le_pow_right (by decide) hle)
    have hnat : (x.setWidth 192).toNat = x.toNat := by
      rw [BitVec.toNat_setWidth, Nat.mod_eq_of_lt (by omega)]
    rw [BitVec.toInt_eq_toNat_of_lt (by omega), hnat]

theorem Ty.extend_or (T : Ty) (x y : BitVec T.bits) :
    T.extend (x ||| y) = T.extend x ||| T.extend y := by
  rw [Ty.extend, Ty.extend, Ty.extend]
  split
  · exact BitVec.signExtend_or
  · exact BitVec.setWidth_or

/-- The bits of a number that has both are the same in the register. -/
theorem Ty.extend_eq {T : Ty} {a : I64} (h : T.Holds a.toInt) :
    T.extend (BitVec.ofInt T.bits a.toInt) = a.signExtend 192 := by
  apply BitVec.eq_of_toInt_eq
  rw [Ty.extend_toInt, BitVec.toInt_signExtend_of_le (by decide)]
  exact Ty.wrap_of_holds h

/-- The `|` of `i64` is that of the type, on its numbers. -/
theorem Ty.or_toInt {T : Ty} {a b : I64} (ha : T.Holds a.toInt) (hb : T.Holds b.toInt) :
    T.or a.toInt b.toInt = (a ||| b).toInt := by
  rw [Ty.or, ← Ty.extend_toInt, Ty.extend_or, Ty.extend_eq ha, Ty.extend_eq hb,
    ← BitVec.signExtend_or, BitVec.toInt_signExtend_of_le (by decide)]

theorem castInt_toInt (v : I64) : (castInt v).toInt = Ty.i32.wrap v.toInt := by
  have hbits : BitVec.ofInt 32 v.toInt = v.setWidth 32 := by
    apply BitVec.eq_of_toInt_eq
    rw [BitVec.toInt_ofInt, BitVec.toInt_setWidth, BitVec.toInt_eq_toNat_bmod]
    exact Int.bmod_bmod_of_dvd (by decide)
  rw [castInt, BitVec.toInt_signExtend_of_le (by decide), ← hbits]
  rfl

/-! ## Literals -/

instance (l : Literal) : Decidable l.Octal := inferInstanceAs (Decidable (_ ∧ _ ∧ _))

/-- The number that `eval` takes a literal for. -/
def Literal.read (l : Literal) : Nat := if l.Octal then l.asOctal else l.value

/-- The type at the end of a literal, if it has one. -/
def Literal.tail (l : Literal) : Text := (l.suffix.map Ty.text).getD []

theorem Literal.tail_cases (l : Literal) : (l.suffix = none ∧ l.tail = []) ∨
    ∃ c s, l.tail = c :: s ∧ (c = 'i' ∨ c = 'u') := by
  rw [Literal.tail]
  cases l.suffix with
  | none => exact .inl ⟨rfl, rfl⟩
  | some T =>
    refine .inr ⟨_, T.width.text, rfl, ?_⟩
    cases T.signed
    · exact .inr rfl
    · exact .inl rfl

theorem Literal.filter_text (l : Literal) :
    l.text.filter (· ≠ '_') = l.radix.text ++ (l.digits ++ l.tail) := by
  have hradix : l.radix.text.filter (· ≠ '_') = l.radix.text := by cases l.radix <;> decide
  have htail : l.tail.filter (· ≠ '_') = l.tail := by
    rw [Literal.tail]
    cases l.suffix with
    | none => rfl
    | some T =>
      obtain ⟨s, w⟩ := T
      cases s <;> cases w <;> decide
  rw [← htail, ← hradix, Literal.digits, Literal.text, List.filter_append, List.filter_append,
    hradix, List.append_assoc]
  rfl

theorem Literal.digits_valid (l : Literal) : ∀ c ∈ l.digits, digitVal c < l.radix.base := by
  intro c hc
  obtain ⟨hc, hne⟩ := List.mem_filter.mp hc
  exact (l.valid c hc).resolve_left (of_decide_eq_true hne)

theorem Literal.digits_ne_nil (l : Literal) : l.digits ≠ [] := l.some_digit

theorem parsed_other {d : Char} (h : d ≠ '0') (t : Text) :
    parsed (d :: t) = fromStrRadix 10 (d :: t) := by
  unfold parsed
  split
  · next heq => exact absurd (List.cons.inj heq).1 h
  · next heq => exact absurd (List.cons.inj heq).1 h
  · next heq => exact absurd (List.cons.inj heq).1 h
  · rfl

theorem parsed_zero {c : Char} (hx : c ≠ 'x') (ho : c ≠ 'o') (t : Text) :
    parsed ('0' :: c :: t) = if (c :: t).all Char.isDigit then fromStrRadix 8 (c :: t)
      else fromStrRadix 10 ('0' :: c :: t) := by
  unfold parsed
  split
  · next heq => exact absurd (List.cons.inj (List.cons.inj heq).2).1 hx
  · next heq => exact absurd (List.cons.inj (List.cons.inj heq).2).1 ho
  · next heq =>
    obtain ⟨rfl, rfl⟩ := List.cons.inj (List.cons.inj heq).2
    rfl
  · next h => exact absurd rfl (h c t)

/-- A zero in front does not count. -/
theorem fromStrRadix_zero {radix : Nat} {c : Char} (hr : 0 < radix) (hc : c.isAlphanum = true)
    (t : Text) : fromStrRadix radix ('0' :: c :: t) = fromStrRadix radix (c :: t) := by
  have hdigits : Str.digits radix ('0' :: c :: t) = Str.digits radix (c :: t) := by
    have hzero : isRadix radix '0' = true := decide_eq_true hr
    have hnum : numeral radix (('0' :: c :: t).map digitVal) =
        numeral radix ((c :: t).map digitVal) := by
      rw [List.map_cons, numeral, List.foldl_cons, Nat.zero_mul]
      rfl
    simp only [Str.digits, List.all_cons, hzero, Bool.true_and, hnum]
    simp
  rw [fromStrRadix_unsigned rfl, fromStrRadix_unsigned hc, hdigits]

/-- A decimal literal's first digit. -/
theorem Literal.digits_cons {l : Literal} (hr : l.radix = .dec) :
    ∃ d t, l.digits = d :: t ∧ (∀ c ∈ l.digits, c.isDigit = true) := by
  obtain ⟨d, t, hd⟩ := List.exists_cons_of_ne_nil l.digits_ne_nil
  refine ⟨d, t, hd, fun c hc => isDigit_of_digitVal ?_⟩
  have hlt := l.digits_valid c hc
  rwa [hr] at hlt

theorem Literal.number_eq {l : Literal} (hs : l.suffix = none) (hr : l.radix ≠ .bin) :
    number l.text =
      if l.Octal then fromStrRadix 8 l.digits else fromStrRadix l.radix.base l.digits := by
  have htail : l.tail = [] := by rw [Literal.tail, hs]; rfl
  rw [number, l.filter_text, htail, List.append_nil]
  cases hradix : l.radix with
  | bin => exact absurd hradix hr
  | hex =>
    rw [if_neg fun ho => absurd (hradix.symm.trans ho.1) (by decide)]
    rfl
  | oct =>
    rw [if_neg fun ho => absurd (hradix.symm.trans ho.1) (by decide)]
    rfl
  | dec =>
    obtain ⟨d, t, hd, hdigit⟩ := Literal.digits_cons hradix
    rw [hd] at hdigit
    have hoctal : l.Octal ↔ d = '0' ∧ t ≠ [] := by
      simp [Literal.Octal, hradix, hd, List.length_pos_iff]
    have hgoal : parsed (d :: t) = if l.Octal then fromStrRadix 8 (d :: t)
        else fromStrRadix 10 (d :: t) := by
      by_cases hzero : d = '0'
      · subst hzero
        cases t with
        | nil =>
          rw [if_neg fun ho => (hoctal.mp ho).2 rfl]
          rfl
        | cons c t =>
          have hc := hdigit c (List.mem_cons_of_mem _ List.mem_cons_self)
          have hne : ∀ x : Char, x.isDigit = false → c ≠ x := fun x hx heq => by
            rw [heq, hx] at hc
            cases hc
          have hall : (c :: t).all Char.isDigit = true :=
            List.all_eq_true.mpr fun x hx => hdigit x (List.mem_cons_of_mem _ hx)
          have halnum : c.isAlphanum = true := by rw [Char.isAlphanum, hc, Bool.or_true]
          rw [parsed_zero (hne 'x' rfl) (hne 'o' rfl), if_pos hall,
            if_pos (hoctal.mpr ⟨rfl, List.cons_ne_nil c t⟩), fromStrRadix_zero (by decide) halnum]
      · rw [parsed_other hzero, if_neg fun ho => hzero (hoctal.mp ho).1]
    rw [hd]
    exact hgoal

/-- In what comes after the zero there is a letter. -/
theorem parsed_letter {c x : Char} {t : Text} (hc : c ≠ 'x' ∧ c ≠ 'o') (hx : x ∈ c :: t)
    (h : 10 ≤ digitVal x) : parsed ('0' :: c :: t) = none := by
  have hdigit : x.isDigit = false := by
    by_contra hd
    rw [digitVal, if_pos (by simpa using hd)] at h
    have hle := (Char.isDigit_iff_toNat.mp (by simpa using hd)).2
    have hnine : '9'.toNat = 57 := rfl
    omega
  have hall : ¬ (c :: t).all Char.isDigit = true := fun hall => by
    have := List.all_eq_true.mp hall x hx
    rw [hdigit] at this
    cases this
  rw [parsed_zero hc.1 hc.2, if_neg hall]
  exact fromStrRadix_invalid rfl (List.mem_cons_of_mem _ hx) h

theorem Literal.number_none {l : Literal} (h : l.suffix ≠ none ∨ l.radix = .bin) :
    number l.text = none := by
  obtain ⟨d, t, hd⟩ := List.exists_cons_of_ne_nil l.digits_ne_nil
  have hlt := l.digits_valid d (hd ▸ List.mem_cons_self)
  have halnum : d.isAlphanum = true := by
    have := l.radix.base_le
    exact digitVal_isAlphanum (by omega)
  rw [number, l.filter_text]
  by_cases hbin : l.radix = .bin
  · rw [hbin]
    exact parsed_letter (by decide) List.mem_cons_self (by decide)
  · obtain ⟨hs, -⟩ | ⟨c, s, htail, hc⟩ := l.tail_cases
    · exact absurd hs (h.resolve_right hbin)
    · have hval : 16 ≤ digitVal c := by obtain rfl | rfl := hc <;> decide
      have hmem : c ∈ d :: (t ++ l.tail) := by simp [htail]
      rw [hd, List.cons_append]
      cases hradix : l.radix with
      | bin => exact absurd hradix hbin
      | hex => exact fromStrRadix_invalid halnum hmem hval
      | oct => exact fromStrRadix_invalid halnum hmem (by omega)
      | dec =>
        by_cases hzero : d = '0'
        · subst hzero
          have hcons : ∃ c' r, t ++ l.tail = c' :: r ∧ c' ≠ 'x' ∧ c' ≠ 'o' ∧ c ∈ c' :: r := by
            cases t with
            | nil =>
              refine ⟨c, s, htail, ?_, ?_, List.mem_cons_self⟩
              all_goals obtain rfl | rfl := hc <;> decide
            | cons c' t =>
              obtain ⟨_, _, -, hdigit⟩ := Literal.digits_cons hradix
              have hc' := hdigit c' (hd ▸ List.mem_cons_of_mem _ List.mem_cons_self)
              have hne : ∀ x : Char, x.isDigit = false → c' ≠ x := fun x hx heq => by
                rw [heq, hx] at hc'
                cases hc'
              exact ⟨c', t ++ l.tail, rfl, hne 'x' rfl, hne 'o' rfl, by simp [htail]⟩
          obtain ⟨c', r, heq, hx, ho, hin⟩ := hcons
          rw [heq]
          exact parsed_letter ⟨hx, ho⟩ hin (by omega)
        · have hten : fromStrRadix 10 (d :: (t ++ l.tail)) = none :=
            fromStrRadix_invalid halnum hmem (by omega)
          exact (parsed_other hzero _).trans hten

theorem Literal.number_taken {l : Literal} (h : l.Taken) :
    number l.text = some (BitVec.ofNat 64 l.read) ∧ l.read < 2 ^ 63 := by
  have hbase := l.radix.base_le
  rw [Literal.number_eq h.suffix h.radix, Literal.read]
  split
  · next ho =>
    obtain ⟨hvalid, hlt⟩ := h.octal ho
    refine ⟨(fromStrRadix_valid (by decide) l.digits_ne_nil hvalid).trans (if_pos hlt), hlt⟩
  · next ho =>
    have hlt := h.small ho
    exact ⟨(fromStrRadix_valid (by omega) l.digits_ne_nil l.digits_valid).trans (if_pos hlt), hlt⟩

theorem Literal.taken_of_number {l : Literal} (h : number l.text ≠ none) : l.Taken := by
  have hs : l.suffix = none := by
    by_contra hs
    exact h (Literal.number_none (.inl hs))
  have hr : l.radix ≠ .bin := fun hr => h (Literal.number_none (.inr hr))
  have hbase := l.radix.base_le
  rw [Literal.number_eq hs hr] at h
  refine ⟨hs, hr, fun ho => ?_, fun ho => ?_⟩
  · rw [if_pos ho] at h
    have hvalid : ∀ c ∈ l.digits, digitVal c < 8 := by
      intro c hc
      by_contra hlt
      obtain ⟨d, t, hd, hdigit⟩ := Literal.digits_cons ho.1
      have halnum : d.isAlphanum = true := by
        rw [Char.isAlphanum, hdigit d (hd ▸ List.mem_cons_self), Bool.or_true]
      rw [hd] at h hc
      exact h (fromStrRadix_invalid halnum hc (by omega))
    rw [fromStrRadix_valid (by decide) l.digits_ne_nil hvalid] at h
    exact ⟨hvalid, by_contra fun hlt => h (if_neg hlt)⟩
  · rw [if_neg ho, fromStrRadix_valid (by omega) l.digits_ne_nil l.digits_valid] at h
    exact by_contra fun hlt => h (if_neg hlt)

/-- What a literal is read as. -/
theorem Literal.number_some {l : Literal} {v : I64} (h : number l.text = some v) :
    v.toInt = l.read := by
  obtain ⟨hnum, hlt⟩ := Literal.number_taken (Literal.taken_of_number (h ▸ Option.some_ne_none v))
  obtain rfl := Option.some.inj (h.symm.trans hnum)
  have hnat : (BitVec.ofNat 64 l.read).toNat = l.read := by
    rw [BitVec.toNat_ofNat]
    omega
  rw [BitVec.toInt_eq_toNat_of_lt (by omega), hnat]

/-! ## What is read -/

section Reading
variable {defs : Defs} {T : Ty} {e : Expr} {n : Nat}

theorem Legible.succ (h : Legible defs n e) : Legible defs (n + 1) e := by
  induction h with
  | lit h => exact .lit h
  | digits h => exact .digits h
  | ident hx hd _ ih => exact .ident hx hd ih
  | call hbar _ ih => exact .call hbar ih
  | castLit ht _ ih => exact .castLit ht ih
  | castIdent ht _ ih => exact .castIdent ht ih
  | recast _ ih => exact .recast ih
  | or hbar _ _ ih ih' => exact .or hbar ih ih'

theorem Legible.mono {m : Nat} (h : Legible defs n e) (hle : n ≤ m) : Legible defs m e := by
  induction hle with
  | refl => exact h
  | step _ ih => exact ih.succ

/-- Exactly the legible expressions are read. -/
theorem reading_ne_none : reading defs n e ≠ none ↔ Legible defs n e := by
  constructor
  · intro h
    induction n generalizing e with
    | zero => exact absurd rfl h
    | succ n ih =>
      induction e with
      | lit l => exact .lit (Literal.taken_of_number h)
      | ident crate x =>
        by_cases hx : number x.text = none
        · simp only [reading, readOnce, hx, Option.none_or] at h
          cases hd : defs x.text with
          | none =>
            rw [hd] at h
            exact absurd rfl h
          | some d =>
            rw [hd, Option.bind_some] at h
            exact .ident hx hd (ih h)
        · exact .digits hx
      | call w b arg b' _ =>
        simp only [reading, readOnce] at h
        split at h
        · exact absurd rfl h
        · next hbar => exact .call hbar (ih fun hnone => h (by rw [hnone]; rfl))
      | cast e b b' name U ihe =>
        cases e with
        | lit l =>
          simp only [reading, readOnce] at h
          split at h
          · next ht => exact .castLit ht (ihe h)
          · exact absurd rfl h
        | ident crate x =>
          simp only [reading, readOnce] at h
          split at h
          · next ht => exact .castIdent ht (ihe h)
          · exact absurd rfl h
        | cast e b₁ b₂ name₁ T₁ => exact .recast (ihe h)
        | call => exact absurd rfl h
        | or => exact absurd rfl h
      | or e b b' rest _ _ =>
        simp only [reading, readOnce] at h
        split at h
        · exact absurd rfl h
        · next hbar =>
          refine .or hbar (ih fun hnone => h (by rw [hnone]; rfl)) (ih fun hnone => h ?_)
          rw [hnone]
          cases reading defs n e <;> rfl
  · intro h
    induction h with
    | lit h =>
      have hnum := (Literal.number_taken h).1
      simp only [reading, readOnce, hnum]
      exact Option.some_ne_none _
    | digits h =>
      obtain ⟨v, hv⟩ := Option.ne_none_iff_exists'.mp h
      simp only [reading, readOnce, hv, Option.some_or]
      exact Option.some_ne_none v
    | ident hx hd _ ih =>
      simp only [reading, readOnce, hx, hd, Option.none_or, Option.bind_some]
      exact ih
    | call hbar _ ih =>
      simp only [reading, readOnce, if_neg hbar]
      exact fun hnone => ih (Option.map_eq_none_iff.mp hnone)
    | @castLit n l b b' name T ht _ ih =>
      cases n with
      | zero => exact absurd rfl ih
      | succ n =>
        rw [reading, readOnce, if_pos ht]
        exact ih
    | @castIdent n crate x b b' name T ht _ ih =>
      cases n with
      | zero => exact absurd rfl ih
      | succ n =>
        rw [reading, readOnce, if_pos ht]
        exact ih
    | @recast n e b₁ b₂ name₁ T₁ b b' name T _ ih =>
      cases n with
      | zero => exact absurd rfl ih
      | succ n => exact ih
    | @or n e b b' rest hbar _ _ ih ih' =>
      obtain ⟨v, hv⟩ := Option.ne_none_iff_exists'.mp ih
      obtain ⟨w, hw⟩ := Option.ne_none_iff_exists'.mp ih'
      simp only [reading, readOnce, if_neg hbar, hv, hw]
      exact Option.some_ne_none _

end Reading

/-! ## What is denoted -/

section Denotes
variable {defs : Defs} {T U : Ty} {e p : Expr} {v w : Int}

theorem Denotes.holds (h : Denotes defs T e v) : T.Holds v := by
  induction h with
  | lit => exact Ty.read_holds _ _
  | ident _ _ ih => exact ih
  | call => exact Ty.read_holds _ _
  | cast => exact Ty.read_holds _ _
  | or => exact Ty.read_holds _ _

theorem Denotes.unique (h : Denotes defs T e v) (h' : Denotes defs T e w) : v = w := by
  induction h generalizing w with
  | lit => cases h'; rfl
  | ident hd _ ih =>
    cases h' with
    | ident hd' h' =>
      rw [hd] at hd'
      obtain ⟨-, rfl⟩ := Prod.mk.inj (Option.some.inj hd')
      exact ih h'
  | call _ ih =>
    cases h' with
    | call h' => rw [ih h']
  | cast _ ih =>
    cases h' with
    | cast h' => rw [ih h']
  | or _ _ ih ih' =>
    cases h' with
    | or h' h'' => rw [ih h', ih' h'']

/-- The parts of a typed expression have their types. -/
theorem Typed.part {c : Crate} {d d' : Ty × Expr} (h : Typed c.defs d.1 d.2)
    (hp : Part c.defs d d') : Typed c.defs d'.1 d'.2 := by
  induction hp with
  | refl => exact h
  | tail _ hsub ih =>
    cases hsub with
    | named hd => exact c.typed _ _ _ hd
    | _ =>
      simp only at ih
      cases ih
      assumption

end Denotes

/-! ## The evaluator -/

section Sound
variable {c : Crate} {T U : Ty} {e p : Expr} {n : Nat} {v : I64}

theorem eval_text (h : Typed c.defs T e) : eval c.consts e.text 0 = reading c.defs 9 e :=
  evalWithin_text c 9 h

/-- A cast is read as its operand. -/
theorem reading_cast {b b' : Gap} {name : TyName} {defs : Defs}
    (h : reading defs n (.cast p b b' name U) = some v) : reading defs n p = some v := by
  cases n with
  | zero => cases h
  | succ n =>
    cases p with
    | lit l =>
      simp only [reading, readOnce] at h
      split at h
      · exact h
      · cases h
    | ident crate x =>
      simp only [reading, readOnce] at h
      split at h
      · exact h
      · cases h
    | cast e b₁ b₂ name₁ T₁ => exact h
    | call => cases h
    | or => cases h

/-- **What is read of a careful expression is what it denotes.** -/
theorem Careful.denotes (hc : Careful c.defs T e) (hn : n ≤ 9) (hp : Part c.defs (T, e) (U, p))
    (ht : Typed c.defs U p) (hv : reading c.defs n p = some v) : Denotes c.defs U p v.toInt := by
  induction n generalizing U p v with
  | zero => cases hv
  | succ n ih =>
    have hplain : ∀ {U p v}, Part c.defs (T, e) (U, p) → reading c.defs (n + 1) p = some v →
        Plain c.defs U p := fun hp hv =>
      hc _ _ hp ((reading_ne_none.mp (hv ▸ Option.some_ne_none _)).mono hn)
    induction ht generalizing v with
    | @lit U l hs =>
      have hread := Literal.number_some hv
      obtain ⟨hoctal, hsmall⟩ : Plain c.defs U (.lit l) := hplain hp hv
      have hwrap : U.wrap l.value = l.read := by
        rw [Literal.read]
        split
        · next ho => exact hoctal ho
        · next ho => exact Ty.wrap_of_holds (hsmall ho)
      rw [hread, ← hwrap]
      exact .lit hs
    | @ident U crate x p hd =>
      have hnum : Plain c.defs U (.ident crate x) := hplain hp hv
      simp only [reading, readOnce, hd, Option.bind_some] at hv
      cases hx : number x.text with
      | some m =>
        rw [hx, Option.some_or] at hv
        obtain rfl := Option.some.inj hv
        exact hnum m hx
      | none =>
        rw [hx, Option.none_or] at hv
        exact .ident hd (ih (by omega) (hp.tail (.named hd)) (c.typed _ _ _ hd) hv)
    | @call w b arg b' harg =>
      simp only [reading, readOnce] at hv
      split at hv
      · cases hv
      · obtain ⟨u, hu, rfl⟩ := Option.map_eq_some_iff.mp hv
        rw [castInt_toInt]
        exact .call (ih (by omega) (hp.tail .arg) harg hu)
    | @cast U p b b' name hop he ihe =>
      have hden := ihe (hp.tail .operand) (reading_cast hv)
      have hfits : Plain c.defs U (.cast p b b' name U) := hplain hp hv
      rw [← Ty.wrap_of_holds (hfits _ hden)]
      exact .cast hden
    | @or U p b b' rest hop he hrest =>
      simp only [reading, readOnce] at hv
      split at hv
      · cases hv
      · obtain ⟨l, hl, hv⟩ := Option.bind_eq_some_iff.mp hv
        obtain ⟨r, hr, hv⟩ := Option.bind_eq_some_iff.mp hv
        obtain rfl := Option.some.inj hv
        have hfirst := ih (by omega) (hp.tail .first) he hl
        have hlast := ih (by omega) (hp.tail .rest) hrest hr
        rw [← Ty.or_toInt hfirst.holds hlast.holds]
        exact .or hfirst hlast

/-- Where `eval` is right about an expression and about what that is made of, the expression is
plain. -/
theorem Right.plain (h : Right c U p) (hsub : ∀ q, Sub c.defs (U, p) q → Right c q.1 q.2)
    (ht : Typed c.defs U p) (hl : Legible c.defs 9 p) : Plain c.defs U p := by
  obtain ⟨v, hv⟩ := Option.ne_none_iff_exists'.mp (reading_ne_none.mpr hl)
  have hden := h v ((eval_text ht).trans hv)
  cases ht with
  | @lit _ l hs =>
    have hread := Literal.number_some hv
    have hwrap : U.wrap l.value = l.read := by
      rw [← hread]
      exact (hden.unique (.lit hs)).symm
    rw [Literal.read] at hwrap
    refine ⟨fun ho => by rwa [if_pos ho] at hwrap, fun ho => ?_⟩
    rw [if_neg ho] at hwrap
    exact hwrap ▸ Ty.read_holds _ _
  | @ident _ crate x e hd =>
    intro n hn
    simp only [reading, readOnce, hn, Option.some_or] at hv
    obtain rfl := Option.some.inj hv
    exact hden
  | @cast _ e b b' name hop he =>
    intro w hw
    have hoperand : Denotes c.defs (operandTy c.defs U e) e v.toInt :=
      hsub _ .operand v ((eval_text he).trans (reading_cast hv))
    have hwrap : v.toInt = U.wrap v.toInt := hden.unique (.cast hoperand)
    rw [hw.unique hoperand, hwrap]
    exact Ty.read_holds _ _
  | call => trivial
  | or => trivial

end Sound

/-! ## A crate -/

def nameA : Ident := ⟨"A".toList, ⟨by decide, by decide⟩, by decide, by simp⟩

def name1 : Ident := ⟨"_1".toList, ⟨by decide, by decide⟩, by decide, by simp⟩

def allBits : Literal := ⟨.hex, "ffff_ffff".toList, none, by decide, by decide, by decide⟩

def seven : Literal := ⟨.dec, "7".toList, none, by decide, by decide, by decide⟩

def zeroTen : Literal := ⟨.dec, "010".toList, none, by decide, by decide, by decide⟩

def lineA : Text := "pub const A: c_uint = 0xffff_ffff;".toList

def line1 : Text := "pub const _1: c_int = 7;".toList

def noBlanks : Blanks := ⟨[], by simp [Blank]⟩

def oneSpace : Blanks := ⟨[' '], by simp [Blank, isWhite]⟩

theorem lineA_spells : Spells lineA nameA (.lit allBits) :=
  ⟨noBlanks, noBlanks, noBlanks, oneSpace, noBlanks, noBlanks, " c_uint ".toList, by decide, rfl⟩

theorem line1_spells : Spells line1 name1 (.lit seven) :=
  ⟨noBlanks, noBlanks, noBlanks, oneSpace, noBlanks, noBlanks, " c_int ".toList, by decide, rfl⟩

def sampleDefs : Defs := fun x =>
  if x = nameA.text then some (.u32, .lit allBits)
  else if x = name1.text then some (.i32, .lit seven) else none

def sample : Crate where
  lines := [lineA, line1]
  defs := sampleDefs
  named := by
    intro line hline d hd
    rw [List.mem_cons, List.mem_singleton] at hline
    obtain rfl | rfl := hline
    · rw [lineA_spells.scrape] at hd
      exact ⟨nameA, congrArg Prod.fst (Option.some.inj hd)⟩
    · rw [line1_spells.scrape] at hd
      exact ⟨name1, congrArg Prod.fst (Option.some.inj hd)⟩
  spelled := by
    intro x T e h
    rw [sampleDefs] at h
    split at h
    · next hx =>
      obtain rfl : x = nameA := Ident.ext hx
      obtain ⟨rfl, rfl⟩ := Prod.mk.inj (Option.some.inj h)
      exact ⟨[], lineA, [line1], rfl, lineA_spells, fun m hm => absurd hm List.not_mem_nil⟩
    · split at h
      · next hx =>
        obtain rfl : x = name1 := Ident.ext hx
        obtain ⟨rfl, rfl⟩ := Prod.mk.inj (Option.some.inj h)
        refine ⟨[lineA], line1, [], rfl, line1_spells, fun m hm d hd => ?_⟩
        rw [List.mem_singleton.mp hm, lineA_spells.scrape] at hd
        rw [← Option.some.inj hd]
        decide
      · cases h
  typed := by
    intro x T e h
    rw [sampleDefs] at h
    split at h
    · obtain ⟨rfl, rfl⟩ := Prod.mk.inj (Option.some.inj h)
      exact .lit fun U hU => absurd hU (by simp [allBits])
    · split at h
      · obtain ⟨rfl, rfl⟩ := Prod.mk.inj (Option.some.inj h)
        exact .lit fun U hU => absurd hU (by simp [seven])
      · cases h

def space : Gap := ⟨[' '], by simp [Blank, isWhite]⟩

def cInt : TyName := ⟨"c_int".toList, by decide, by decide⟩

/-- `A as c_int` -/
def castA : Expr := .cast (.ident false nameA) space space cInt .i32

end ApeShim.GenShim
