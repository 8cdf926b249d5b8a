import ApeShim.GenShim.Rust

/-!
What `eval` makes of the text of an expression, read off the expression itself: it takes a chain
apart at its first bar, so a bar inside of a wrapper leaves a piece that nothing evaluates, and of a
cast it takes what stands before the first ` as `.
-/

namespace ApeShim.GenShim
open Str

/-! ## The expression as it is read -/

/-- One call of `eval`, where `next` is the calls it makes. -/
def readOnce (defs : Defs) (next : Expr → Option I64) : Expr → Option I64
  | .lit l => number l.text
  | .ident _ x => (number x.text).or ((defs x.text).bind fun d => next d.2)
  | .call _ _ arg _ => if '|' ∈ arg.text then none else (next arg).map castInt
  | .cast (.lit l) b b' _ _ =>
    if Tight b.val b'.val then readOnce defs next (.lit l) else none
  | .cast (.ident crate x) b b' _ _ =>
    if Tight b.val b'.val then readOnce defs next (.ident crate x) else none
  | .cast (.cast e b₁ b₂ name T) _ _ _ _ => readOnce defs next (.cast e b₁ b₂ name T)
  | .cast _ _ _ _ _ => none
  | .or e _ _ rest => if '|' ∈ e.text then none else do
    let l ← next e
    let r ← next rest
    some (l ||| r)

/-- `evalWithin`, on expressions. -/
def reading (defs : Defs) : Nat → Expr → Option I64
  | 0, _ => none
  | room + 1, e => readOnce defs (reading defs room) e

/-! ## Characters -/

theorem clean_of_isNumeric {c : Char} (h : isNumeric c = true) :
    isWhite c = false ∧ c ≠ '|' ∧ c ≠ '(' ∧ c ≠ ')' := by
  have hne : ∀ x : Char, isNumeric x = false → c ≠ x := fun x hx heq => by
    rw [heq, hx] at h
    cases h
  refine ⟨?_, hne _ rfl, hne _ rfl, hne _ rfl⟩
  rw [isNumeric, Bool.or_eq_true, Bool.or_eq_true, beq_iff_eq, beq_iff_eq] at h
  obtain (rfl | rfl) | h := h
  · rfl
  · rfl
  · exact not_white_of_isAlphanum h

theorem isNumeric_of_digit {c : Char} (h : digitVal c < 36) : isNumeric c = true := by
  rw [isNumeric, digitVal_isAlphanum h, Bool.or_true]

theorem Radix.base_le (r : Radix) : r.base ≤ 16 := by cases r <;> decide

theorem Radix.text_numeric (r : Radix) : ∀ c ∈ r.text, isNumeric c = true := by cases r <;> decide

theorem Ty.text_numeric (T : Ty) : ∀ c ∈ T.text, isNumeric c = true := by
  obtain ⟨s, w⟩ := T
  cases s <;> cases w <;> decide

theorem Clean.solid {t : Text} (h : Clean t) : Solid t :=
  Solid.of_word h.ne_nil fun c hc => (h.plain c hc).1

theorem Clean.not_mem {t : Text} (h : Clean t) : '|' ∉ t ∧ '(' ∉ t ∧ ')' ∉ t ∧ ' ' ∉ t := by
  refine ⟨fun hc => (h.plain _ hc).2.1 rfl, fun hc => (h.plain _ hc).2.2.1 rfl,
    fun hc => (h.plain _ hc).2.2.2 rfl, fun hc => ?_⟩
  exact absurd (h.plain _ hc).1 (by decide)

theorem Literal.text_numeric (l : Literal) : ∀ c ∈ l.text, c = '_' ∨ isNumeric c = true := by
  intro c hc
  rw [Literal.text, List.mem_append, List.mem_append] at hc
  obtain (hc | hc) | hc := hc
  · exact .inr (l.radix.text_numeric c hc)
  · refine (l.valid c hc).imp_right fun hd => isNumeric_of_digit ?_
    have := l.radix.base_le
    omega
  · cases hs : l.suffix with
    | none => simp [hs] at hc
    | some T => exact .inr (T.text_numeric c (by simpa [hs] using hc))

theorem Literal.body_ne_nil (l : Literal) : l.body ≠ [] := fun h => l.some_digit (by rw [h]; rfl)

theorem Literal.clean (l : Literal) : Clean l.text := by
  refine ⟨by simp [Literal.text, l.body_ne_nil], fun c hc => ?_⟩
  obtain rfl | h := l.text_numeric c hc
  · decide
  · exact clean_of_isNumeric h

/-- An identifier with its path. -/
theorem Ident.path_clean (crate : Bool) (x : Ident) : Clean (Expr.ident crate x).text := by
  cases crate with
  | false => exact x.clean
  | true =>
    refine ⟨by simp [Expr.text], fun c hc => ?_⟩
    obtain hc | hc := List.mem_append.mp hc
    · exact (by decide : ∀ c ∈ "crate::".toList,
        isWhite c = false ∧ c ≠ '|' ∧ c ≠ '(' ∧ c ≠ ')') c hc
    · exact x.clean.plain c hc

theorem Wrapper.solid (w : Wrapper) : Solid w.text := by
  cases w
  · exact ⟨⟨'u', "32_cast_int(".toList, rfl, rfl⟩, ⟨'(', "u32_cast_int".toList, rfl, rfl⟩⟩
  · exact ⟨⟨'u', "32_cast_ioctl(".toList, rfl, rfl⟩, ⟨'(', "u32_cast_ioctl".toList, rfl, rfl⟩⟩

/-- A wrapper's name and its parenthesis. -/
theorem Wrapper.text_eq (w : Wrapper) : ∃ u, w.text = u ++ ['('] ∧ Clean u := by
  cases w
  · exact ⟨"u32_cast_int".toList, rfl, by decide, by decide⟩
  · exact ⟨"u32_cast_ioctl".toList, rfl, by decide, by decide⟩

/-- The text of an expression begins and ends with what is not blank. -/
theorem Expr.solid (e : Expr) : Solid e.text := by
  induction e with
  | lit l => exact l.clean.solid
  | ident crate x => exact (x.path_clean crate).solid
  | call w b arg b' ih =>
    exact w.solid.join ⟨⟨')', [], rfl, rfl⟩, ⟨')', [], rfl, rfl⟩⟩
  | cast e b b' name T ih =>
    have h := ih.join name.property.solid (m := b.val ++ 'a' :: 's' :: b'.val)
    rwa [List.append_assoc, List.append_assoc, List.cons_append, List.cons_append] at h
  | or e b b' rest ih ih' =>
    have h := ih.join ih' (m := b.val ++ '|' :: b'.val)
    simpa [Expr.text] using h

/-! ## One call -/

section Call
variable {consts : Consts} {next : Text → Option I64} {room : Nat} {a b b' g g' l p q r t : Text}

theorem inside_eq_some {w : Text} : inside w t = some q ↔ t = w ++ (q ++ [')']) := by
  simp only [inside, Option.bind_eq_some_iff, List.dropPrefix?_eq_some_iff,
    List.dropSuffix?_eq_some_iff, beq_iff_eq, exists_eq_right]

theorem inside_none {w : Text} (h : ∀ q, t ≠ w ++ (q ++ [')'])) : inside w t = none :=
  Option.eq_none_iff_forall_ne_some.mpr fun q hq => h q (inside_eq_some.mp hq)

/-- Blanks around a text do not matter. -/
theorem evalWithin_left (hb : Blank b) (t : Text) :
    evalWithin consts room (b ++ t) = evalWithin consts room t := by
  cases room with
  | zero => rfl
  | succ room => rw [evalWithin, evalWithin, trim_blank_left hb]

theorem evalWithin_right (hb : Blank b) (t : Text) :
    evalWithin consts room (t ++ b) = evalWithin consts room t := by
  cases room with
  | zero => rfl
  | succ room => rw [evalWithin, evalWithin, trim_blank_right hb]

theorem evalWithin_bar (hs : Solid (l ++ '|' :: r)) (hl : '|' ∉ l) :
    evalWithin consts (room + 1) (l ++ '|' :: r) =
      (evalWithin consts room l).bind fun v => (evalWithin consts room r).map (v ||| ·) := by
  simp only [evalWithin, hs.trim, splitOnce_append hl]
  cases evalWithin consts room l with
  | none => rfl
  | some v => cases evalWithin consts room r <;> rfl

theorem ioctl_ne_int (s t : Text) : Wrapper.ioctl.text ++ s ≠ "u32_cast_int(".toList ++ t := by
  have hioctl : Wrapper.ioctl.text = "u32_cast_i".toList ++ 'o' :: "ctl(".toList := by decide
  have hint : "u32_cast_int(".toList = "u32_cast_i".toList ++ 'n' :: "t(".toList := by decide
  rw [hioctl, hint, List.append_assoc, List.append_assoc]
  intro h
  exact absurd (List.cons.inj (List.append_cancel_left h)).1 (by decide)

theorem evalWithin_call (w : Wrapper) (hp : '|' ∉ p) :
    evalWithin consts (room + 1) (w.text ++ (p ++ [')'])) =
      (evalWithin consts room p).map castInt := by
  have hs : Solid (w.text ++ (p ++ [')'])) := by
    rw [← List.append_assoc]
    exact w.solid.join ⟨⟨')', [], rfl, rfl⟩, ⟨')', [], rfl, rfl⟩⟩
  have hbar : '|' ∉ w.text ++ (p ++ [')']) := by
    obtain ⟨u, hu, hclean⟩ := w.text_eq
    simp [hu, hp, hclean.not_mem.1]
  have hin : inside w.text (w.text ++ (p ++ [')'])) = some p := inside_eq_some.mpr rfl
  simp only [evalWithin, hs.trim, splitOnce_none hbar]
  cases w with
  | int =>
    have hint : inside "u32_cast_int(".toList _ = some p := hin
    rw [hint]
  | ioctl =>
    have hint := inside_none fun q => ioctl_ne_int (p ++ [')']) (q ++ [')'])
    have hioctl : inside "u32_cast_ioctl(".toList _ = some p := hin
    rw [hint, hioctl]

theorem evalWithin_other (hs : trim t = q) (hbar : '|' ∉ q)
    (hw : ∀ (w : Wrapper) q', q ≠ w.text ++ (q' ++ [')'])) :
    evalWithin consts (room + 1) t = resolve consts (evalWithin consts room) q := by
  have hint : inside "u32_cast_int(".toList q = none := inside_none (hw .int)
  have hioctl : inside "u32_cast_ioctl(".toList q = none := inside_none (hw .ioctl)
  simp only [evalWithin, hs, splitOnce_none hbar, hint, hioctl]

theorem dropCrate_mem {c : Char} (hc : isWhite c = true ∨ c = '(') (h : c ∈ t) :
    c ∈ dropCrate t := by
  induction t using dropCrate.induct with
  | case1 t ih =>
    rw [dropCrate]
    apply ih
    simp only [List.mem_cons] at h
    obtain h | h | h | h | h | h | h | h := h
    all_goals first
      | exact h
      | exact absurd hc (by rw [h]; decide)
  | case2 t h' =>
    rw [dropCrate]
    · exact h
    · exact h'

theorem parsed_numeric {v : I64} (h : parsed t = some v) : ∀ c ∈ t, isNumeric c = true := by
  unfold parsed at h
  split at h
  · have h16 := fromStrRadix_numeric (by decide) h
    exact List.forall_mem_cons.mpr ⟨rfl, List.forall_mem_cons.mpr ⟨rfl, h16⟩⟩
  · have h8 := fromStrRadix_numeric (by decide) h
    exact List.forall_mem_cons.mpr ⟨rfl, List.forall_mem_cons.mpr ⟨rfl, h8⟩⟩
  · split at h
    · exact List.forall_mem_cons.mpr ⟨rfl, fromStrRadix_numeric (by decide) h⟩
    · exact fromStrRadix_numeric (by decide) h
  · exact fromStrRadix_numeric (by decide) h

theorem number_none {c : Char} (hc : isWhite c = true ∨ c = '(') (h : c ∈ t) : number t = none := by
  refine Option.eq_none_iff_forall_ne_some.mpr fun v hv => ?_
  have hne : c ≠ '_' := by
    rintro rfl
    exact absurd hc (by decide)
  obtain ⟨hwhite, -, hparen, -⟩ := clean_of_isNumeric (parsed_numeric hv c
    (List.mem_filter.mpr ⟨h, decide_eq_true hne⟩))
  obtain hc | hc := hc
  · rw [hwhite] at hc
    cases hc
  · exact hparen hc

/-- Only identifiers are names. -/
def Named (consts : Consts) : Prop := ∀ t, consts t ≠ none → ∃ x : Ident, x.text = t

/-- A blank or a parenthesis in what is looked up makes it neither a number nor a name. -/
theorem resolve_none (hn : Named consts) {c : Char} (hc : isWhite c = true ∨ c = '(')
    (h : c ∈ trim (beforeAs t)) : resolve consts next t = none := by
  have hmem := dropCrate_mem hc h
  rw [resolve, number_none hc hmem]
  have hnone : consts (dropCrate (trim (beforeAs t))) = none := by
    by_contra hne
    obtain ⟨x, hx⟩ := hn _ hne
    obtain ⟨hwhite, -, hparen, -⟩ := x.clean.plain c (hx ▸ hmem)
    obtain hc | hc := hc
    · rw [hwhite] at hc
      cases hc
    · exact hparen hc
  rw [hnone]
  rfl

/-! ## Casts -/

theorem beforeAs_cons {c : Char} (h : c ≠ ' ') (t : Text) :
    beforeAs (c :: t) = c :: beforeAs t := by
  refine if_neg fun hp => ?_
  exact h (List.cons_prefix_cons.mp (List.isPrefixOf_iff_prefix.mp hp)).1.symm

theorem beforeAs_append (h : ' ' ∉ p) (t : Text) : beforeAs (p ++ t) = p ++ beforeAs t := by
  induction p with
  | nil => rfl
  | cons c p ih =>
    rw [List.cons_append, beforeAs_cons fun hc => h (hc ▸ List.mem_cons_self),
      ih fun hp => h (List.mem_cons_of_mem _ hp)]
    rfl

/-- The first ` as ` that can be is the one at the end of the gap. -/
theorem beforeAs_gap (hg : Blank g ∧ g ≠ []) (hg' : g' ≠ []) (r : Text) :
    beforeAs (g ++ 'a' :: 's' :: (g' ++ r)) =
      if Tight g g' then g.dropLast
      else g ++ 'a' :: 's' :: beforeAs (g' ++ r) := by
  obtain ⟨hg, hne⟩ := hg
  induction g with
  | nil => exact absurd rfl hne
  | cons c g ih =>
    cases g with
    | nil =>
      obtain ⟨x, g', rfl⟩ := List.exists_cons_of_ne_nil hg'
      by_cases h : c = ' ' ∧ x = ' '
      · obtain ⟨rfl, rfl⟩ := h
        rfl
      · have has : ' ' ∉ ['a', 's'] := by decide
        have hrest := beforeAs_append has (x :: g' ++ r)
        rw [if_neg (by simpa [Tight] using h), List.singleton_append, List.singleton_append]
        refine (if_neg fun hp => h ?_).trans (congrArg (c :: ·) hrest)
        have hp := List.isPrefixOf_iff_prefix.mp hp
        simp only [List.cons_append] at hp
        have h1 := List.cons_prefix_cons.mp hp
        have h2 := List.cons_prefix_cons.mp h1.2
        have h3 := List.cons_prefix_cons.mp h2.2
        exact ⟨h1.1.symm, (List.cons_prefix_cons.mp h3.2).1.symm⟩
    | cons x g =>
      have hx : isWhite x = true := hg x (List.mem_cons_of_mem _ List.mem_cons_self)
      have hrest := ih (fun y hy => hg y (List.mem_cons_of_mem _ hy)) (List.cons_ne_nil x g)
      rw [List.cons_append]
      refine (if_neg fun hp => ?_).trans ?_
      · have h1 := List.cons_prefix_cons.mp (List.isPrefixOf_iff_prefix.mp hp)
        rw [List.cons_append] at h1
        rw [← (List.cons_prefix_cons.mp h1.2).1] at hx
        exact absurd hx (by decide)
      · have htight : Tight (c :: x :: g) g' ↔ Tight (x :: g) g' := by
          rw [Tight, Tight, List.getLast?_cons_cons]
        rw [hrest, List.dropLast_cons_cons]
        simp only [htight]
        split <;> rfl

/-- What begins with a word and a blank does not begin with a wrapper. -/
theorem not_wrapper (ha : Clean a) (hp : ∀ c ∈ p.head?, isWhite c = true) (w : Wrapper) (q : Text) :
    a ++ p ≠ w.text ++ q := by
  intro heq
  obtain ⟨u, hu, hclean⟩ := w.text_eq
  have hpre : u ++ ['('] <+: a ++ p := ⟨q, by rw [heq, hu]⟩
  obtain ⟨v, rfl, hv⟩ := prefix_concat hpre ha.not_mem.2.1
  cases p with
  | nil => simp at hv
  | cons x p =>
    have hx := hp x rfl
    cases v with
    | nil =>
      rw [List.nil_append, List.cons_prefix_cons] at hv
      rw [← hv.1] at hx
      exact absurd hx (by decide)
    | cons y v =>
      rw [List.cons_append, List.cons_prefix_cons] at hv
      obtain ⟨rfl, -⟩ := hv
      rw [(hclean.plain y (List.mem_append_right _ List.mem_cons_self)).1] at hx
      cases hx

/-- Of a cast what is before the first `as` counts, if that has its spaces. -/
theorem evalWithin_chain (hn : Named consts) (ha : Clean a) (hg : Blank g ∧ g ≠ []) (hg' : g' ≠ [])
    (hs : Solid (a ++ (g ++ 'a' :: 's' :: (g' ++ r))))
    (hbar : '|' ∉ a ++ (g ++ 'a' :: 's' :: (g' ++ r))) :
    evalWithin consts (room + 1) (a ++ (g ++ 'a' :: 's' :: (g' ++ r))) =
      if Tight g g' then evalWithin consts (room + 1) a else none := by
  obtain ⟨c, g₀, rfl⟩ := List.exists_cons_of_ne_nil hg.2
  have hc : isWhite c = true := hg.1 c List.mem_cons_self
  have hgap : ∀ x ∈ ((c :: g₀) ++ 'a' :: 's' :: (g' ++ r)).head?, isWhite x = true := by
    simpa using hc
  have hself : evalWithin consts (room + 1) a = resolve consts (evalWithin consts room) a := by
    refine evalWithin_other ha.solid.trim ha.not_mem.1 fun w q => ?_
    have hnil := not_wrapper ha (p := []) (by simp) w (q ++ [')'])
    rwa [List.append_nil] at hnil
  have hbefore : beforeAs (a ++ ((c :: g₀) ++ 'a' :: 's' :: (g' ++ r))) = _ :=
    (beforeAs_append ha.not_mem.2.2.2 _).trans (congrArg (a ++ ·) (beforeAs_gap hg hg' r))
  rw [evalWithin_other hs.trim hbar fun w q => not_wrapper ha hgap w _, hself]
  split
  · next h =>
    have hblank : Blank (c :: g₀).dropLast := fun x hx => hg.1 x (List.dropLast_subset _ hx)
    have hword : beforeAs a = a := by simpa [beforeAs] using beforeAs_append ha.not_mem.2.2.2 []
    rw [resolve, hbefore, if_pos h, trim_blank_right hblank, resolve, hword]
  · next h =>
    obtain ⟨x, a₀, rfl, hx⟩ := ha.solid.first
    refine resolve_none hn (.inl hc) ?_
    have hkeep := trim_keep hx (by decide : isWhite 'a' = false) (a₀ ++ c :: g₀)
      ('s' :: beforeAs (g' ++ r))
    rw [hbefore, if_neg h, ← List.append_assoc]
    simp only [List.cons_append] at hkeep ⊢
    rw [hkeep]
    simp

/-! ## Wrappers that are not closed -/

theorem trim_wrapper (w : Wrapper) (p : Text) : trim (w.text ++ p) = w.text ++ trimEnd p := by
  cases w
  · exact trim_keep (c := 'u') (x := '(') rfl rfl "32_cast_int".toList p
  · exact trim_keep (c := 'u') (x := '(') rfl rfl "32_cast_ioctl".toList p

/-- A wrapper's text is evaluated only if its last character closes it. -/
theorem evalWithin_unclosed (hn : Named consts) (w : Wrapper) (hbar : '|' ∉ p)
    (h : ∀ q, trimEnd p = q ++ [')'] → evalWithin consts room q = none) :
    evalWithin consts (room + 1) (w.text ++ p) = none := by
  obtain ⟨b, hb, hp⟩ := exists_trimEnd p
  have hbar' : '|' ∉ trimEnd p := fun hc => hbar (hp ▸ List.mem_append_left b hc)
  obtain ⟨u, hu, hclean⟩ := w.text_eq
  by_cases hclosed : ∃ q, trimEnd p = q ++ [')']
  · obtain ⟨q, hq⟩ := hclosed
    rw [hp, ← List.append_assoc, evalWithin_right hb, hq,
      evalWithin_call w fun hc => hbar' (hq ▸ List.mem_append_left _ hc), h q hq]
    rfl
  · rw [evalWithin_other (trim_wrapper w p)]
    · have hbefore := beforeAs_append (p := w.text) (by cases w <;> decide) (trimEnd p)
      refine resolve_none hn (c := '(') (.inr rfl) ?_
      rw [hbefore, trim_wrapper, hu]
      simp
    · simp [hu, hclean.not_mem.1, hbar']
    · intro w' q heq
      cases w <;> cases w'
      · exact hclosed ⟨q, List.append_cancel_left heq⟩
      · exact ioctl_ne_int _ _ heq.symm
      · exact ioctl_ne_int _ _ heq
      · exact hclosed ⟨q, List.append_cancel_left heq⟩

theorem not_closed (ht : Clean t) (hb : Blank b) (hq : ')' ∉ q) (hp : p <+: b ++ t ++ q)
    (r : Text) : trimEnd p ≠ r ++ [')'] := by
  intro heq
  have hmem : ')' ∈ trimEnd p := heq ▸ List.mem_append_right _ List.mem_cons_self
  have hin := hp.subset ((List.rdropWhile_prefix _ _).subset hmem)
  rw [List.mem_append, List.mem_append] at hin
  obtain (h | h) | h := hin
  · exact hb.not_mem rfl h
  · exact ht.not_mem.2.2.1 h
  · exact hq h

/-- A piece of an expression that begins with a wrapper and ends before the wrapper does is not
evaluated. -/
theorem evalWithin_open (hn : Named consts) (e : Expr) {w : Wrapper} (hb : Blank b) (hq : ')' ∉ q)
    (hbar : '|' ∉ p) (hp : p <+: b ++ e.text ++ q) :
    evalWithin consts room (w.text ++ p) = none := by
  induction e generalizing room w b q p with
  | lit l =>
    cases room with
    | zero => rfl
    | succ room =>
      exact evalWithin_unclosed hn w hbar fun r hr => absurd hr (not_closed l.clean hb hq hp r)
  | ident crate x =>
    cases room with
    | zero => rfl
    | succ room =>
      exact evalWithin_unclosed hn w hbar fun r hr =>
        absurd hr (not_closed (x.path_clean crate) hb hq hp r)
  | call w' b₁ arg b₂ ih =>
    cases room with
    | zero => rfl
    | succ room =>
      -- a closing parenthesis in the piece is the one of the inner wrapper, or one inside of it
      refine evalWithin_unclosed hn w hbar fun r hr => ?_
      obtain ⟨u, hu, hclean⟩ := w'.text_eq
      have hlast : r ++ [')'] <+:
          (b ++ w'.text) ++ ((b₁.val ++ arg.text ++ b₂.val) ++ ')' :: q) := by
        refine hr ▸ (List.rdropWhile_prefix _ _).trans ?_
        simpa [Expr.text] using hp
      have hopen : ')' ∉ b ++ w'.text := by
        simp [hu, hb.not_mem (c := ')') rfl, hclean.not_mem.2.2.1]
      obtain ⟨v, rfl, hv⟩ := prefix_concat hlast hopen
      have hbar' : '|' ∉ v := fun hc => hbar ((List.rdropWhile_prefix _ _).subset
        (hr ▸ List.mem_append_left _ (List.mem_append_right _ hc)))
      rw [List.append_assoc, evalWithin_left hb]
      exact ih b₁.property (b₂.property.not_mem rfl) hbar' (prefix_before hv hq)
  | cast e b₁ b₂ name T ih =>
    refine ih hb (q := b₁.val ++ 'a' :: 's' :: (b₂.val ++ name.val) ++ q) ?_ hbar ?_
    · simp [b₁.property.1.not_mem (c := ')') rfl, b₂.property.1.not_mem (c := ')') rfl,
        name.property.not_mem, hq]
    · simpa [Expr.text] using hp
  | or e b₁ b₂ rest ih ih' =>
    refine ih hb (b₁.property.not_mem rfl) hbar
      (prefix_of_not_mem (t := b₂.val ++ rest.text ++ q) ?_ hbar)
    simpa [Expr.text] using hp

/-- Before the first bar of an operand there is such a piece. -/
theorem Typed.open_piece {defs : Defs} {T : Ty} {e : Expr} (h : Typed defs T e) (hop : e.IsOperand)
    (hbar : '|' ∈ e.text) : ∃ (w : Wrapper) (arg : Expr) (b q p r : Text), Blank b ∧ ')' ∉ q ∧
      '|' ∉ p ∧ p <+: b ++ arg.text ++ q ∧ e.text = (w.text ++ p) ++ '|' :: r := by
  induction h with
  | lit => exact absurd hbar (Literal.clean _).not_mem.1
  | ident => exact absurd hbar (Ident.path_clean _ _).not_mem.1
  | @call w b arg b' =>
    obtain ⟨u, hu, hclean⟩ := w.text_eq
    have harg : '|' ∈ b.val ++ arg.text ++ b'.val := by
      simpa [Expr.text, hu, hclean.not_mem.1] using hbar
    obtain ⟨p, r, heq, hp⟩ := List.eq_append_cons_of_mem harg
    refine ⟨w, arg, b.val, b'.val, p, r ++ [')'], b.property, b'.property.not_mem rfl, hp,
      ⟨'|' :: r, heq.symm⟩, ?_⟩
    rw [Expr.text, heq]
    simp
  | @cast T e b b' name hop' _ ih =>
    have he : '|' ∈ e.text := by
      simpa [Expr.text, b.property.1.not_mem (c := '|') rfl, b'.property.1.not_mem (c := '|') rfl,
        name.property.not_mem.1] using hbar
    obtain ⟨w, arg, b₀, q, p, r, hb, hq, hp, hpre, heq⟩ := ih hop' he
    refine ⟨w, arg, b₀, q, p, r ++ (b.val ++ 'a' :: 's' :: (b'.val ++ name.val)), hb, hq, hp, hpre,
      ?_⟩
    rw [Expr.text, heq]
    simp
  | or => exact absurd hop id

/-- An operand with a bar in it is evaluated neither alone nor at the front of a text. -/
theorem Typed.barred {defs : Defs} {T : Ty} {e : Expr} (h : Typed defs T e) (hn : Named consts)
    (hop : e.IsOperand) (hbar : '|' ∈ e.text) (hs : Solid (e.text ++ t)) :
    evalWithin consts room (e.text ++ t) = none := by
  obtain ⟨w, arg, b, q, p, r, hb, hq, hp, hpre, heq⟩ := h.open_piece hop hbar
  cases room with
  | zero => rfl
  | succ room =>
    obtain ⟨u, hu, hclean⟩ := w.text_eq
    have hfront : '|' ∉ w.text ++ p := by simp [hu, hclean.not_mem.1, hp]
    rw [heq, List.append_assoc, List.cons_append] at hs ⊢
    rw [evalWithin_bar hs hfront, evalWithin_open hn arg hb hq hp hpre]
    rfl

/-- A word is a number or a name. -/
theorem evalWithin_clean (ha : Clean a) : evalWithin consts (room + 1) a =
    (number (dropCrate a)).or ((consts (dropCrate a)).bind (evalWithin consts room)) := by
  have hword : beforeAs a = a := by simpa [beforeAs] using beforeAs_append ha.not_mem.2.2.2 []
  rw [evalWithin_other ha.solid.trim ha.not_mem.1, resolve, hword, ha.solid.trim]
  · cases number (dropCrate a) <;> rfl
  · intro w q
    have hnil := not_wrapper ha (p := []) (by simp) w (q ++ [')'])
    rwa [List.append_nil] at hnil

theorem dropCrate_word (h : ':' ∉ t) : dropCrate t = t := by
  unfold dropCrate
  split
  · simp at h
  · rfl

end Call

/-! ## The crate -/

section Scrape
variable {lines : List Text} {out : Consts} {x t : Text}

theorem scrape_cons (line : Text) : scrapeConsts (line :: lines) out =
    scrapeConsts lines (((scrapeLine line).map (orInsert out)).getD out) := rfl

/-- What is there already stays. -/
theorem scrape_keep (h : out x = some t) : scrapeConsts lines out x = some t := by
  induction lines generalizing out with
  | nil => exact h
  | cons line lines ih =>
    rw [scrape_cons]
    apply ih
    cases hline : scrapeLine line with
    | none => exact h
    | some d =>
      simp only [Option.map_some, Option.getD_some, orInsert]
      split
      · exact h
      · next hnone =>
        rw [Function.update_of_ne, h]
        rintro rfl
        rw [h] at hnone
        exact hnone rfl

theorem scrape_first {before after : List Text} {line : Text}
    (hline : scrapeLine line = some (x, t))
    (hbefore : ∀ m ∈ before, ∀ d, scrapeLine m = some d → d.1 ≠ x) (hout : out x = none) :
    scrapeConsts (before ++ line :: after) out x = some t := by
  induction before generalizing out with
  | nil =>
    rw [List.nil_append, scrape_cons, hline]
    refine scrape_keep ?_
    simp [orInsert, hout]
  | cons m before ih =>
    rw [List.cons_append, scrape_cons]
    apply ih fun m' hm' => hbefore m' (List.mem_cons_of_mem m hm')
    cases hm : scrapeLine m with
    | none => exact hout
    | some d =>
      have hne := hbefore m List.mem_cons_self d hm
      simp only [Option.map_some, Option.getD_some, orInsert]
      split
      · exact hout
      · rw [Function.update_of_ne hne.symm, hout]

/-- What is scraped is in a line. -/
theorem scrape_some (h : scrapeConsts lines out x = some t) :
    out x = some t ∨ ∃ line ∈ lines, scrapeLine line = some (x, t) := by
  induction lines generalizing out with
  | nil => exact .inl h
  | cons line lines ih =>
    rw [scrape_cons] at h
    obtain h | ⟨m, hm, h⟩ := ih h
    · cases hline : scrapeLine line with
      | none =>
        rw [hline] at h
        exact .inl h
      | some d =>
        rw [hline, Option.map_some, Option.getD_some, orInsert] at h
        split at h
        · exact .inl h
        · by_cases hx : x = d.1
          · subst hx
            rw [Function.update_self] at h
            exact .inr ⟨line, List.mem_cons_self, by rw [hline, ← Option.some.inj h]⟩
          · rw [Function.update_of_ne hx] at h
            exact .inl h
    · exact .inr ⟨m, List.mem_cons_of_mem line hm, h⟩

end Scrape

theorem Spells.scrape {line : Text} {x : Ident} {e : Expr} (h : Spells line x e) :
    scrapeLine line = some (x.text, e.text) := by
  obtain ⟨b₁, b₂, b₃, b₄, b₅, b₆, ty, hty, rfl⟩ := h
  have hcolon : ':' ∉ b₂.val ++ x.text ++ b₃.val := by
    simpa [b₂.property.not_mem (c := ':') rfl, b₃.property.not_mem (c := ':') rfl] using
      fun hc => (x.word ':' hc).1 rfl
  have hline : Solid ("pub const ".toList ++ ((b₂.val ++ x.text ++ b₃.val) ++
      ':' :: (ty ++ '=' :: (b₄.val ++ e.text ++ b₅.val ++ [';'])))) := by
    refine ⟨⟨'p', _, rfl, rfl⟩, ⟨';', "pub const ".toList ++ ((b₂.val ++ x.text ++ b₃.val) ++
      ':' :: (ty ++ '=' :: (b₄.val ++ e.text ++ b₅.val))), by simp, rfl⟩⟩
  have hexpr : Solid (e.text ++ b₅.val ++ [';']) :=
    e.solid.join ⟨⟨';', [], rfl, rfl⟩, ⟨';', [], rfl, rfl⟩⟩
  have htext : trim (b₄.val ++ e.text ++ b₅.val ++ [';']) = e.text ++ b₅.val ++ [';'] := by
    rw [List.append_assoc, List.append_assoc, trim_blank_left b₄.property, ← List.append_assoc,
      hexpr.trim]
  have hpub : ∀ t : Text, ("pub const ".toList ++ t).dropPrefix? "pub const ".toList = some t :=
    fun t => List.dropPrefix?_append_of_beq t BEq.rfl
  have hsemi : ∀ t : Text, (t ++ [';']).dropSuffix? [';'] = some t :=
    fun t => List.dropSuffix?_eq_some_iff.mpr ⟨[';'], rfl, BEq.rfl⟩
  rw [scrapeLine, trim_blank_right b₆.property, trim_blank_left b₁.property, hline.trim]
  simp only [hpub, hsemi, splitOnce_append hcolon, splitOnce_append hty, htext, Option.bind_eq_bind,
    Option.bind_some]
  rw [trim_blank_right b₃.property, trim_blank_left b₂.property, x.clean.solid.trim,
    trim_blank_right b₅.property, e.solid.trim]

theorem Crate.consts_eq (c : Crate) {x : Ident} {T : Ty} {e : Expr}
    (h : c.defs x.text = some (T, e)) : c.consts x.text = some e.text := by
  obtain ⟨before, line, after, hlines, hline, hbefore⟩ := c.spelled x T e h
  rw [Crate.consts, hlines]
  exact scrape_first hline.scrape hbefore rfl

theorem Crate.consts_named (c : Crate) : Named c.consts := by
  intro t ht
  obtain ⟨e, he⟩ := Option.ne_none_iff_exists'.mp ht
  obtain h | ⟨line, hline, h⟩ := scrape_some he
  · cases h
  · exact c.named line hline _ h

/-! ## The simulation -/

theorem isDigit_of_digitVal {c : Char} (h : digitVal c < 10) : c.isDigit = true := by
  by_contra hd
  rw [digitVal, if_neg hd] at h
  split at h
  · next hl =>
    have hlow : 97 ≤ c.toNat := by
      simp only [Char.isLower, Bool.and_eq_true, decide_eq_true_eq, ge_iff_le] at hl
      exact UInt32.le_iff_toNat_le.mp hl.1
    omega
  · split at h
    · next hu =>
      have hup : 65 ≤ c.toNat := by
        simp only [Char.isUpper, decide_eq_true_eq, ge_iff_le] at hu
        exact UInt32.le_iff_toNat_le.mp hu.1
      omega
    · omega

/-- A literal begins with a digit. -/
theorem Literal.head_digit (l : Literal) : ∃ c s, l.text = c :: s ∧ c.isDigit = true := by
  cases hr : l.radix with
  | dec =>
    obtain ⟨c, s, hbody⟩ := List.exists_cons_of_ne_nil l.body_ne_nil
    refine ⟨c, s ++ (l.suffix.map Ty.text).getD [], by rw [Literal.text, hr, hbody]; rfl, ?_⟩
    have hc := l.valid c (hbody ▸ List.mem_cons_self)
    rw [hr] at hc
    have hne := l.digit_first hr
    rw [hbody] at hne
    exact isDigit_of_digitVal (hc.resolve_left fun h => hne (by rw [h]; rfl))
  | hex => exact ⟨'0', _, by rw [Literal.text, hr]; rfl, rfl⟩
  | oct => exact ⟨'0', _, by rw [Literal.text, hr]; rfl, rfl⟩
  | bin => exact ⟨'0', _, by rw [Literal.text, hr]; rfl, rfl⟩

section Simulation
variable {c : Crate} {T : Ty} {e : Expr} {room : Nat}

theorem evalWithin_lit (l : Literal) : evalWithin c.consts (room + 1) l.text = number l.text := by
  have hcolon : ':' ∉ l.text := fun h => by
    obtain h | h := l.text_numeric _ h
    · exact absurd h (by decide)
    · exact absurd h (by decide)
  have hnone : c.consts l.text = none := by
    by_contra hne
    obtain ⟨x, hx⟩ := c.consts_named _ hne
    obtain ⟨d, s, hd, hdigit⟩ := l.head_digit
    have hfirst := x.first d (by rw [hx, hd]; rfl)
    rw [hdigit] at hfirst
    cases hfirst
  rw [evalWithin_clean l.clean, dropCrate_word hcolon, hnone]
  exact Option.or_none

theorem evalWithin_ident (crate : Bool) (x : Ident) :
    evalWithin c.consts (room + 1) (Expr.ident crate x).text =
      (number x.text).or ((c.consts x.text).bind (evalWithin c.consts room)) := by
  have hcolon : ':' ∉ x.text := fun h => (x.word _ h).1 rfl
  have hdrop : dropCrate (Expr.ident crate x).text = x.text := by
    cases crate
    · exact dropCrate_word hcolon
    · exact dropCrate_word hcolon
  rw [evalWithin_clean (x.path_clean crate), hdrop]

/-- What the text of a cast begins with: a word, or a wrapper. -/
theorem Typed.cast_text {defs : Defs} (h : Typed defs T e) (hop : e.IsOperand) (b b' : Gap)
    (name : TyName) (U : Ty) : ∃ a g g' r, (Clean a ∨ ∃ (w : Wrapper) (p : Text), a = w.text ++ p) ∧
      (Blank g ∧ g ≠ []) ∧ g' ≠ [] ∧
      (Expr.cast e b b' name U).text = a ++ (g ++ 'a' :: 's' :: (g' ++ r)) := by
  induction h generalizing b b' name U with
  | @lit _ l =>
    exact ⟨l.text, b, b', name, .inl l.clean, b.property, b'.property.2, rfl⟩
  | @ident _ crate x =>
    exact ⟨_, b, b', name, .inl (x.path_clean crate), b.property, b'.property.2, rfl⟩
  | @call w b₁ arg b₂ =>
    exact ⟨_, b, b', name, .inr ⟨w, (b₁.val ++ arg.text ++ b₂.val) ++ [')'],
      List.append_assoc _ _ _⟩, b.property, b'.property.2, rfl⟩
  | @cast T e b₁ b₂ name₁ hop' _ ih =>
    obtain ⟨a, g, g', r, ha, hg, hg', heq⟩ := ih hop' b₁ b₂ name₁ T
    refine ⟨a, g, g', r ++ (b.val ++ 'a' :: 's' :: (b'.val ++ name.val)), ha, hg, hg', ?_⟩
    rw [Expr.text, heq]
    simp
  | or => exact absurd hop id

theorem cast_last (e : Expr) (b b' : Gap) (name : TyName) (U : Ty) (q : Text) :
    (Expr.cast e b b' name U).text ≠ q ++ [')'] := by
  intro heq
  obtain ⟨c, s, hs, -⟩ := name.property.solid.last
  have hc : (e.text ++ (b.val ++ 'a' :: 's' :: (b'.val ++ s))) ++ [c] = q ++ [')'] := by
    rw [← heq, Expr.text, hs]
    simp
  obtain ⟨-, hc⟩ := List.append_inj' hc rfl
  obtain rfl := (List.cons.inj hc).1
  exact name.property.not_mem.2.2.1 (hs ▸ List.mem_append_right _ List.mem_cons_self)

/-- A cast of a wrapper is not read. -/
theorem evalWithin_castCall {w : Wrapper} {b b' : Gap} {name : TyName} {U : Ty} {p : Text}
    (h : (Expr.cast e b b' name U).text = w.text ++ p)
    (hbar : '|' ∉ (Expr.cast e b b' name U).text) :
    evalWithin c.consts (room + 1) (Expr.cast e b b' name U).text = none := by
  have htrim := (Expr.cast e b b' name U).solid.trim
  rw [h, trim_wrapper] at htrim
  rw [h] at hbar ⊢
  refine evalWithin_unclosed c.consts_named w (fun hc => hbar (List.mem_append_right _ hc)) ?_
  intro q hq
  rw [List.append_cancel_left htrim] at hq
  exact absurd (by rw [h, hq, List.append_assoc]) (cast_last e b b' name U (w.text ++ q))

theorem bar_mem_cast {b b' : Gap} {name : TyName} {U : Ty} :
    '|' ∈ (Expr.cast e b b' name U).text ↔ '|' ∈ e.text := by
  simp [Expr.text, b.property.1.not_mem (c := '|') rfl, b'.property.1.not_mem (c := '|') rfl,
    name.property.not_mem.1]

/-- An operand with a bar in it is not read, and no cast of it. -/
theorem evalWithin_barred (h : Typed c.defs T e) (hop : e.IsOperand) (hbar : '|' ∈ e.text) :
    evalWithin c.consts room e.text = none := by
  rw [← List.append_nil e.text]
  exact h.barred c.consts_named hop hbar (by rw [List.append_nil]; exact e.solid)

/-- A cast of a cast is read as the first one. -/
theorem evalWithin_recast {b₁ b₂ b b' : Gap} {name₁ name : TyName} {T₁ U : Ty}
    (h : Typed c.defs T (.cast e b₁ b₂ name₁ T₁)) :
    evalWithin c.consts (room + 1) (Expr.cast (.cast e b₁ b₂ name₁ T₁) b b' name U).text =
      evalWithin c.consts (room + 1) (Expr.cast e b₁ b₂ name₁ T₁).text := by
  have hs := (Expr.cast (.cast e b₁ b₂ name₁ T₁) b b' name U).solid
  by_cases hbar : '|' ∈ (Expr.cast e b₁ b₂ name₁ T₁).text
  · rw [evalWithin_barred h trivial hbar]
    exact h.barred c.consts_named trivial hbar hs
  · have hbar' : '|' ∉ (Expr.cast (.cast e b₁ b₂ name₁ T₁) b b' name U).text := fun hc =>
      hbar (bar_mem_cast.mp hc)
    obtain ⟨hop, he⟩ : e.IsOperand ∧ Typed c.defs (operandTy c.defs T e) e := by
      cases h with
      | cast hop he => exact ⟨hop, he⟩
    obtain ⟨a, g, g', r, ha, hg, hg', heq⟩ := he.cast_text hop b₁ b₂ name₁ T₁
    have htext : (Expr.cast (.cast e b₁ b₂ name₁ T₁) b b' name U).text =
        a ++ (g ++ 'a' :: 's' :: (g' ++ (r ++ (b.val ++ 'a' :: 's' :: (b'.val ++ name.val))))) := by
      rw [Expr.text, heq]
      simp
    obtain ha | ⟨w, p, rfl⟩ := ha
    · have hs' := (Expr.cast e b₁ b₂ name₁ T₁).solid
      rw [htext] at hs hbar' ⊢
      rw [heq] at hs' hbar ⊢
      rw [evalWithin_chain c.consts_named ha hg hg' hs hbar',
        evalWithin_chain c.consts_named ha hg hg' hs' hbar]
    · rw [List.append_assoc] at heq htext
      rw [evalWithin_castCall heq hbar, evalWithin_castCall htext hbar']

/-- Of a cast of a word the word is read, if ` as ` has its spaces. -/
theorem evalWithin_castWord (h : Clean e.text) (b b' : Gap) (name : TyName) (U : Ty) :
    evalWithin c.consts (room + 1) (Expr.cast e b b' name U).text =
      if Tight b.val b'.val then evalWithin c.consts (room + 1) e.text else none :=
  evalWithin_chain c.consts_named h b.property b'.property.2 (Expr.cast e b b' name U).solid
    fun hc => h.not_mem.1 ((bar_mem_cast (U := U)).mp hc)

theorem evalWithin_castOnce (h : Typed c.defs T e) (hop : e.IsOperand)
    (ih : evalWithin c.consts (room + 1) e.text = reading c.defs (room + 1) e) (b b' : Gap)
    (name : TyName) (U : Ty) : evalWithin c.consts (room + 1) (Expr.cast e b b' name U).text =
      reading c.defs (room + 1) (.cast e b b' name U) := by
  cases e with
  | lit l =>
    have hclean : Clean (Expr.lit l).text := l.clean
    rw [evalWithin_castWord hclean, ih]
    rfl
  | ident crate x =>
    rw [evalWithin_castWord (x.path_clean crate), ih]
    rfl
  | call w b₁ arg b₂ =>
    by_cases hbar : '|' ∈ (Expr.call w b₁ arg b₂).text
    · exact h.barred c.consts_named hop hbar (Expr.cast _ b b' name U).solid
    · refine evalWithin_castCall (w := w) (p := b₁.val ++ arg.text ++ b₂.val ++ [')'] ++
        (b.val ++ 'a' :: 's' :: (b'.val ++ name.val))) ?_ fun hc => hbar (bar_mem_cast.mp hc)
      simp [Expr.text]
  | cast e b₁ b₂ name₁ T₁ =>
    rw [evalWithin_recast h, ih]
    rfl
  | or => exact absurd hop id

theorem evalWithin_or {b b' : Blanks} {rest : Expr} (h : Typed c.defs T e) (hop : e.IsOperand) :
    evalWithin c.consts (room + 1) (Expr.or e b b' rest).text =
      if '|' ∈ e.text then none else (evalWithin c.consts room e.text).bind fun v =>
        (evalWithin c.consts room rest.text).map (v ||| ·) := by
  have hs := (Expr.or e b b' rest).solid
  split
  · next hbar =>
    rw [Expr.text, List.append_assoc] at hs ⊢
    exact h.barred c.consts_named hop hbar hs
  · next hbar =>
    have hfront : '|' ∉ e.text ++ b.val := fun hc =>
      (List.mem_append.mp hc).elim hbar (b.property.not_mem rfl)
    rw [Expr.text] at hs ⊢
    rw [evalWithin_bar hs hfront, evalWithin_right b.property, evalWithin_left b'.property]

theorem evalWithin_callOnce {w : Wrapper} {b b' : Blanks} (h : Typed c.defs T (.call w b e b')) :
    evalWithin c.consts (room + 1) (Expr.call w b e b').text =
      if '|' ∈ e.text then none else (evalWithin c.consts room e.text).map castInt := by
  split
  · next hbar =>
    refine evalWithin_barred h trivial ?_
    simp [Expr.text, hbar]
  · next hbar =>
    have hin : '|' ∉ b.val ++ e.text ++ b'.val := by
      simp [hbar, b.property.not_mem (c := '|') rfl, b'.property.not_mem (c := '|') rfl]
    rw [Expr.text, List.append_assoc, evalWithin_call w hin, evalWithin_right b'.property,
      evalWithin_left b.property]

/-- **The text is read as the expression is.** -/
theorem evalWithin_text (c : Crate) (room : Nat) {T : Ty} {e : Expr} (h : Typed c.defs T e) :
    evalWithin c.consts room e.text = reading c.defs room e := by
  induction room generalizing T e with
  | zero => rfl
  | succ room ih =>
    induction h with
    | lit => exact evalWithin_lit _
    | @ident T crate x e h =>
      rw [evalWithin_ident, c.consts_eq h, Option.bind_some, ih (c.typed _ _ _ h)]
      simp only [reading, readOnce, h, Option.bind_some]
    | @call w b arg b' harg =>
      rw [evalWithin_callOnce (.call harg), ih harg]
      rfl
    | @cast T e b b' name hop he ihe => exact evalWithin_castOnce he hop ihe b b' name T
    | @or T e b b' rest hop he hrest =>
      rw [evalWithin_or he hop, ih he, ih hrest]
      simp only [reading, readOnce]
      split
      · rfl
      · cases reading c.defs room e with
        | none => rfl
        | some v => cases reading c.defs room rest <;> rfl

end Simulation

end ApeShim.GenShim
