import ApeShim.Nt.At

/-!
`__mkntpathath` of `shim/mkntpathat.c`: the slash at the end of a converted path is cut, and
what stands there is asked for first. The length it cuts with is the one from before the
prefix went, so the buffer is modelled with what is left behind its string.
-/

namespace ApeShim.Nt
open Walk

/-! ## The buffer -/

/-- A buffer: the string, and what stands behind its NUL. -/
structure Buffer where
  text : Str
  stale : Str
  deriving DecidableEq, Repr

/-- `file[i]` -/
def Buffer.cell (b : Buffer) (i : Nat) : UInt16 := (b.text ++ 0 :: b.stale).getD i 0

/-- `file[i] = 0;` -/
def Buffer.cut (b : Buffer) (i : Nat) : Buffer :=
  if i < b.text.length then ⟨b.text.take i, b.text.drop (i + 1) ++ 0 :: b.stale⟩
  else if i = b.text.length then b
  else ⟨b.text, b.stale.set (i - b.text.length - 1) 0⟩

/-- The downgrade in place: the string moves to the front, and its end stays behind it. -/
def memmoved (file old : Str) : Buffer :=
  let n := file.length
  if n > 4 ∧ file.take 4 = longMark then
    if n > 8 ∧ (file.drop 4).take 4 = uncMark then
      if n - 6 < 260 then ⟨bslash :: bslash :: file.drop 8, file.drop (n - 5) ++ 0 :: old⟩
      else ⟨file, old⟩
    else if n < 260 then ⟨file.drop 4, file.drop (n - 3) ++ 0 :: old⟩
    else ⟨file, old⟩
  else ⟨file, old⟩

/-- The text that `__normntpath` leaves in `__mkntpathath_impl`, and whether it is that of a
path behind the directory's. -/
def Env.converted (env : Env) (roots : Roots) (dirhand : DirHand) (path : Str) :
    Except NtErr (Str × Bool) :=
  match (env.mkntpath2 roots path).2 with
  | .error e => .error e
  | .ok file =>
      if file = [] then .error .enoent
      else
        match dirhand with
        | .fdcwd => .ok (normntpath file, false)
        | .handle final =>
            if isAbsolutePathWin32 file then .ok (normntpath file, false)
            else
              match final with
              | none => .error .winerr
              | some dir =>
                  if dir.length + 1 + file.length + 1 > env.pathMax then .error .enametoolong
                  else .ok (normntpath (dir ++ bslash :: file), true)

/-- `__mkntpathath_impl`: the buffer, and the length it returns. -/
def Env.mkntpathathBuffer (env : Env) (roots : Roots) (dirhand : DirHand) (path old : Str) :
    Except NtErr (Buffer × Nat) :=
  (env.converted roots dirhand path).map fun (file, joined) =>
    (if joined then memmoved file old else ⟨file, old⟩, file.length)

/-! ## The check -/

/-- Neither a directory nor a reparse point. -/
def regular (attrs : UInt32) : Bool := attrs &&& 0x10 = 0 && attrs &&& 0x400 = 0

/-- `GetFileAttributes`. A text with a separator behind it names directories only. -/
structure Attributes where
  get : Str → Option UInt32
  slashed : ∀ s, ∀ a ∈ get (s ++ [bslash]), regular a = false

inductive AtErr
  | nt (e : NtErr)
  | enotdir
  deriving DecidableEq, Repr

/-- `__mkntpathath`, behind the conversion. -/
def slashCheck (attrs : Attributes) (b : Buffer) (len : Nat) : Except AtErr (Buffer × Nat) :=
  if len ≠ 0 ∧ b.cell (len - 1) = bslash then
    let (b, len) :=
      if len > 1 ∧ ¬ (len = 3 ∧ b.cell 1 = colon) then (b.cut (len - 1), len - 1) else (b, len)
    if (attrs.get b.text).any regular then .error .enotdir else .ok (b, len)
  else .ok (b, len)

/-- `__mkntpathath`. -/
def Env.mkntpathath (env : Env) (attrs : Attributes) (roots : Roots) (dirhand : DirHand)
    (path old : Str) : Except AtErr (Buffer × Nat) :=
  match env.mkntpathathBuffer roots dirhand path old with
  | .error e => .error (.nt e)
  | .ok (b, len) => slashCheck attrs b len

/-- The buffer holds what the conversion is known to give. -/
theorem moved_text (file old : Str) : (memmoved file old).text = downgrade 260 file := by
  simp only [memmoved, downgrade]
  split
  · split
    · split <;> rfl
    · split <;> rfl
  · rfl

theorem mkntpathathBuffer_eq (env : Env) (roots : Roots) (dirhand : DirHand) (path old : Str) :
    (env.mkntpathathBuffer roots dirhand path old).map (fun r => (r.1.text, r.2)) =
      (env.mkntpathathImpl roots dirhand path).2 := by
  rw [Env.mkntpathathBuffer, Env.converted, Env.mkntpathathImpl]
  rcases env.mkntpath2 roots path with ⟨roots', e | file⟩
  · rfl
  · by_cases hnil : file = []
    · simp only [if_pos hnil]
      rfl
    · simp only [if_neg hnil]
      rcases dirhand with _ | final
      · rfl
      · by_cases habs : isAbsolutePathWin32 file = true
        · simp only [habs, if_true]
          rfl
        · simp only [habs, Bool.false_eq_true, if_false]
          rcases final with _ | dir
          · rfl
          · by_cases hlen : dir.length + 1 + file.length + 1 > env.pathMax
            · simp only [if_pos hlen]
              rfl
            · simp only [if_neg hlen]
              exact congrArg (fun s => Except.ok (s, _)) (moved_text _ old)

/-! ## What should hold -/

/-- `X:\` -/
def isDriveRoot : Str → Bool
  | [c, d, e] => isAlpha c.toNat && d = colon && e = bslash
  | _ => false

/-- No separator ends it, but that of a root. -/
def Tidy (s : Str) : Prop := s.getLast? = some bslash → isDriveRoot s = true ∨ s = [bslash]

/-- The text that names a file, without the separator of one that must be a directory. -/
def fileOf (s : Str) : Str :=
  if s.getLast? = some bslash ∧ isDriveRoot s = false ∧ s ≠ [bslash] then s.dropLast else s

structure SlashRule (attrs : Attributes) (path : Str) (conv : Except NtErr (Buffer × Nat))
    (r : Except AtErr (Buffer × Nat)) : Prop where
  tidy : ∀ b n, r = .ok (b, n) → Tidy b.text
  notdir : path.getLast?.any isSlash = true → ∀ b n, conv = .ok (b, n) →
    (attrs.get (fileOf b.text)).any regular = true → r = .error .enotdir

/-- A text that only looks like the root of a drive. -/
def fakeRoot (s : Str) : Bool :=
  s.length = 3 && s.getD 1 0 = colon && s.getLast? = some bslash && !isDriveRoot s

/-- When it holds, of the text `__normntpath` leaves: one that is downgraded has no separator
at its end but that of a volume, and no other is a fake root; and where the path ends with a
separator, so does the text, or it names no regular file. -/
def SlashOk (attrs : Attributes) (path file : Str) (joined : Bool) : Prop :=
  (if joined = true ∧ downgrade 260 file ≠ file then
      file.getLast? = some bslash → ∃ c, isAlpha c.toNat = true ∧ file = drivePre c
    else fakeRoot file = false) ∧
  (path.getLast?.any isSlash = true → file.getLast? = some bslash ∨
    (attrs.get (if joined then downgrade 260 file else file)).any regular = false)

/-! ## No doubled separators -/

/-- Newest first: two separators in a row stand only at the very start. -/
def NoDouble (o : Str) : Prop := ∀ a b, o = a ++ bslash :: bslash :: b → b = []

theorem NoDouble.suffix {o s : Str} (h : NoDouble o) (hs : s <:+ o) : NoDouble s := by
  obtain ⟨x, rfl⟩ := hs
  intro a b hab
  exact h (x ++ a) b (by rw [hab, List.append_assoc])

theorem NoDouble.cons {o : Str} (h : NoDouble o) {c : UInt16}
    (hc : c = bslash → o.head? = some bslash → o.length ≤ 1) : NoDouble (c :: o) := by
  intro a b hab
  cases a with
  | nil =>
    obtain ⟨rfl, rfl⟩ := List.cons.inj hab
    have := hc rfl rfl
    rw [List.length_cons] at this
    exact List.eq_nil_of_length_eq_zero (by omega)
  | cons d a => exact h a b (List.cons.inj hab).2

theorem upOne_noDouble {o : Str} (h : NoDouble o) : NoDouble (upOne o) := by
  have hsuffix : o.dropWhile (· = bslash) <:+ o := List.dropWhile_suffix _
  rw [upOne]
  cases hd : o.dropWhile (· = bslash) with
  | nil => exact fun a b hab => absurd hab (by simp)
  | cons d e =>
    rw [hd] at hsuffix
    have hne : d ≠ bslash := by
      have := List.head_dropWhile_not (fun x => decide (x = bslash)) (l := o) (by simp [hd])
      simpa [hd] using this
    have hde := h.suffix hsuffix
    simp only
    split
    · refine NoDouble.cons (NoDouble.cons hde fun _ hh => ?_) fun hdot => ?_
      · exact absurd (Option.some.inj hh) hne
      · exact absurd hdot (by decide)
    · split
      · exact hde
      · exact hde.suffix (List.dropWhile_suffix _)

theorem normLoop_noDouble (p o : Str) (ho : NoDouble o) :
    ∃ r, normLoop p o = r.reverse ∧ NoDouble r := by
  induction p, o using normLoop.induct with
  | case1 o => exact ⟨o, rfl, ho⟩
  | case2 c rest o c' hskip ih =>
    rw [normLoop.eq_def]
    dsimp only
    rw [if_pos hskip]
    exact ih ho
  | case3 c o c' hskip hdot =>
    rw [normLoop.eq_def]
    dsimp only
    rw [if_neg hskip, if_pos hdot]
    exact ⟨o, rfl, ho⟩
  | case4 c o c' hskip d e hdot ih =>
    rw [normLoop.eq_def]
    dsimp only
    rw [if_neg hskip, if_pos hdot]
    exact ih ho
  | case5 c rest o c' hskip hdot hup ih =>
    rw [normLoop.eq_def]
    dsimp only
    rw [if_neg hskip, if_neg hdot, if_pos hup]
    exact ih (upOne_noDouble ho)
  | case6 c rest o c' hskip hdot hup ih =>
    rw [normLoop.eq_def]
    dsimp only
    rw [if_neg hskip, if_neg hdot, if_neg hup]
    refine ih (ho.cons fun hc hhead => ?_)
    by_contra hlen
    exact hskip ⟨by omega, hc, hhead⟩

/-- **`__normntpath`** doubles no separator but at the start. -/
theorem normntpath_double {p a : Str} (h : normntpath p = a ++ [bslash, bslash]) : a = [] := by
  obtain ⟨r, hr, hdouble⟩ := normLoop_noDouble p [] (fun a b hab => absurd hab (by simp))
  rw [normntpath, hr] at h
  have hrev : r = [] ++ bslash :: bslash :: a.reverse := by
    rw [← List.reverse_reverse r, h]
    simp
  simpa using hdouble [] a.reverse hrev

/-! ## The buffer after the move -/

theorem cell_last {T old : Str} (hT : T ≠ []) : (Buffer.mk T old).cell (T.length - 1) = T.getLast hT := by
  have hlen := List.length_pos_iff.mpr hT
  have hlt : T.length - 1 < T.length := by omega
  rw [Buffer.cell, List.getD_append _ _ _ _ hlt, List.getD_eq_getElem _ _ hlt,
    List.getLast_eq_getElem]

/-- The string that moved ends where it ended, and its last character is still where it was
before, behind the NUL. -/
theorem moved_cases (T old : Str) :
    (memmoved T old = ⟨T, old⟩ ∧ downgrade 260 T = T) ∨
    ∃ S stale, memmoved T old = ⟨S, stale⟩ ∧ downgrade 260 T = S ∧ S.length + 1 < T.length ∧ 4 < T.length ∧
      S.getLast? = T.getLast? ∧ (memmoved T old).cell (T.length - 1) = T.getLastD 0 ∧
      (S = T.drop 4 ∧ T.take 4 = longMark ∨ S = bslash :: bslash :: T.drop 8 ∧ 8 < T.length) := by
  have hcell : ∀ (S : Str) (k : Nat), 0 < k → S.length + k + 1 = T.length →
      (Buffer.mk S (T.drop (T.length - k) ++ 0 :: old)).cell (T.length - 1) = T.getLastD 0 := by
    intro S k hk hlen
    have hT : T ≠ [] := by
      rintro rfl
      simp at hlen
    have hidx : T.length - 1 - S.length = k - 1 + 1 := by omega
    have hle : S.length ≤ T.length - 1 := by omega
    rw [Buffer.cell, List.getD_append_right _ _ _ _ hle, hidx, List.getD_cons_succ,
      List.getD_append _ _ _ _ (by rw [List.length_drop]; omega), List.getLastD_eq_getLast?,
      List.getD_eq_getElem?_getD, List.getElem?_drop, List.getLast?_eq_getElem?]
    have : T.length - k + (k - 1) = T.length - 1 := by omega
    rw [this]
  have hlast : ∀ k, k < T.length → (T.drop k).getLast? = T.getLast? := by
    intro k hk
    rw [List.getLast?_drop, if_neg (by omega)]
  by_cases hlong : T.length > 4 ∧ T.take 4 = longMark
  · by_cases hunc : T.length > 8 ∧ (T.drop 4).take 4 = uncMark
    · by_cases hfit : T.length - 6 < 260
      · refine Or.inr ⟨bslash :: bslash :: T.drop 8, T.drop (T.length - 5) ++ 0 :: old, ?_, ?_, ?_, hlong.1,
          ?_, ?_, Or.inr ⟨rfl, hunc.1⟩⟩
        · simp only [memmoved, if_pos hlong, if_pos hunc, if_pos hfit]
        · simp only [downgrade, if_pos hlong, if_pos hunc, if_pos hfit]
        · simp only [List.length_cons, List.length_drop]
          omega
        · rw [List.getLast?_cons_cons, List.getLast?_cons_of_ne_nil, hlast 8 hunc.1]
          rw [ne_eq, List.drop_eq_nil_iff]
          omega
        · simp only [memmoved, if_pos hlong, if_pos hunc, if_pos hfit]
          refine hcell _ 5 (by omega) ?_
          simp only [List.length_cons, List.length_drop]
          omega
      · exact Or.inl ⟨by simp only [memmoved, if_pos hlong, if_pos hunc, if_neg hfit],
          by simp only [downgrade, if_pos hlong, if_pos hunc, if_neg hfit]⟩
    · by_cases hfit : T.length < 260
      · refine Or.inr ⟨T.drop 4, T.drop (T.length - 3) ++ 0 :: old, ?_, ?_, ?_, hlong.1,
          hlast 4 hlong.1, ?_, Or.inl ⟨rfl, hlong.2⟩⟩
        · simp only [memmoved, if_pos hlong, if_neg hunc, if_pos hfit]
        · simp only [downgrade, if_pos hlong, if_neg hunc, if_pos hfit]
        · simp only [List.length_drop]
          omega
        · simp only [memmoved, if_pos hlong, if_neg hunc, if_pos hfit]
          refine hcell _ 3 (by omega) ?_
          simp only [List.length_drop]
          omega
      · exact Or.inl ⟨by simp only [memmoved, if_pos hlong, if_neg hunc, if_neg hfit],
          by simp only [downgrade, if_pos hlong, if_neg hunc, if_neg hfit]⟩
  · exact Or.inl ⟨by simp only [memmoved, if_neg hlong], by simp only [downgrade, if_neg hlong]⟩

/-! ## The check on either buffer -/

section Check

variable {attrs : Attributes} {T : Str}

theorem regular_slashed {S : Str} (hS : S.getLast? = some bslash) :
    (attrs.get S).any regular = false := by
  obtain ⟨front, rfl⟩ := List.getLast?_eq_some_iff.mp hS
  rw [Option.any_eq_false]
  intro a ha
  rw [attrs.slashed front a ha]

/-- No separator ends the text, and nothing is asked. -/
theorem slashCheck_open (hT : T.getLast? ≠ some bslash) {b : Buffer}
    (hb : b.cell (T.length - 1) = T.getLastD 0) : slashCheck attrs b T.length = .ok (b, T.length) := by
  rw [slashCheck, if_neg]
  rintro ⟨hne, hcell⟩
  obtain ⟨front, c, rfl⟩ := (List.eq_nil_or_concat' T).resolve_left (by
    rintro rfl
    exact hne rfl)
  rw [hb, List.getLastD_eq_getLast?, List.getLast?_concat] at hcell
  rw [List.getLast?_concat] at hT
  exact hT (congrArg some hcell)

/-- What is cut off a text that did not move. -/
def cutText (T : Str) : Str := if T.length > 1 ∧ ¬ (T.length = 3 ∧ T.getD 1 0 = colon) then T.dropLast else T

theorem slashCheck_plain (hT : T.getLast? = some bslash) (old : Str) :
    ∃ b n, b.text = cutText T ∧ slashCheck attrs ⟨T, old⟩ T.length =
      if (attrs.get (cutText T)).any regular then .error .enotdir else .ok (b, n) := by
  have hne : T ≠ [] := by
    rintro rfl
    cases hT
  have hlen := List.length_pos_iff.mpr hne
  have hlast : (Buffer.mk T old).cell (T.length - 1) = bslash := by
    rw [cell_last hne]
    rw [List.getLast?_eq_some_getLast hne] at hT
    exact Option.some.inj hT
  have hcolon : T.length > 1 ∧ ¬ (T.length = 3 ∧ (Buffer.mk T old).cell 1 = colon) ↔
      T.length > 1 ∧ ¬ (T.length = 3 ∧ T.getD 1 0 = colon) := by
    refine and_congr_right fun h1 => ?_
    rw [Buffer.cell, List.getD_append _ _ _ _ h1]
  rw [slashCheck, if_pos ⟨by omega, hlast⟩]
  by_cases hcut : T.length > 1 ∧ ¬ (T.length = 3 ∧ T.getD 1 0 = colon)
  · have htext : ((Buffer.mk T old).cut (T.length - 1)).text = T.dropLast := by
      have hlt : T.length - 1 < T.length := by omega
      rw [Buffer.cut, if_pos hlt, List.dropLast_eq_take]
    simp only [if_pos (hcolon.mpr hcut), cutText, if_pos hcut, htext]
    exact ⟨_, _, htext, rfl⟩
  · simp only [if_neg (fun h => hcut (hcolon.mp h)), cutText, if_neg hcut]
    exact ⟨⟨T, old⟩, _, rfl, rfl⟩

/-- **Behind a move** the cut misses the string, and what is asked for still has its
separator. -/
theorem slashCheck_moved {S stale : Str} (hlen : S.length + 1 < T.length) (hfour : 4 < T.length)
    (hlast : S.getLast? = some bslash) (hcell : (Buffer.mk S stale).cell (T.length - 1) = bslash) :
    ∃ b n, b.text = S ∧ slashCheck attrs ⟨S, stale⟩ T.length = .ok (b, n) := by
  have hcut : ((Buffer.mk S stale).cut (T.length - 1)).text = S := by
    have hlt : ¬ T.length - 1 < S.length := by omega
    have hne : T.length - 1 ≠ S.length := by omega
    rw [Buffer.cut, if_neg hlt, if_neg hne]
  rw [slashCheck, if_pos ⟨by omega, hcell⟩]
  simp only [if_pos (show T.length > 1 ∧ ¬ (T.length = 3 ∧ (Buffer.mk S stale).cell 1 = colon) by omega),
    hcut, regular_slashed hlast, Bool.false_eq_true, if_false]
  exact ⟨_, _, hcut, rfl⟩

theorem isDriveRoot_length {s : Str} (h : isDriveRoot s = true) :
    ∃ c, isAlpha c.toNat = true ∧ s = [c, colon, bslash] := by
  rcases s with _ | ⟨c, _ | ⟨d, _ | ⟨e, _ | ⟨f, s⟩⟩⟩⟩
  · cases h
  · cases h
  · cases h
  · simp only [isDriveRoot, Bool.and_eq_true, decide_eq_true_eq] at h
    obtain ⟨⟨hc, rfl⟩, rfl⟩ := h
    exact ⟨c, hc, rfl⟩
  · cases h

theorem not_driveRoot (hroot : ¬ (T.length = 3 ∧ T.getD 1 0 = colon)) : isDriveRoot T = false := by
  rw [← Bool.not_eq_true]
  intro h
  obtain ⟨c, -, rfl⟩ := isDriveRoot_length h
  exact hroot ⟨rfl, rfl⟩

theorem fakeRoot_false (hroot : ¬ (T.length = 3 ∧ T.getD 1 0 = colon)) : fakeRoot T = false := by
  rw [← Bool.not_eq_true]
  intro h
  simp only [fakeRoot, Bool.and_eq_true, decide_eq_true_eq] at h
  exact hroot h.1.1

theorem fileOf_open (h : T.getLast? ≠ some bslash) : fileOf T = T := by
  rw [fileOf, if_neg (fun hf => h hf.1)]

theorem fileOf_root (h : isDriveRoot T = true ∨ T = [bslash]) : fileOf T = T := by
  rw [fileOf, if_neg]
  rintro ⟨-, hroot, hne⟩
  rcases h with h | h
  · rw [h] at hroot
    cases hroot
  · exact hne h

/-- A text that stays as it is, and is not asked for. -/
theorem slashRule_kept {path : Str} {b b' : Buffer} {n m : Nat} (hb : b.text = T) (hb' : b'.text = T)
    (hfile : fileOf T = T) :
    SlashRule attrs path (.ok (b', m)) (.ok (b, n)) ↔
      Tidy T ∧ (path.getLast?.any isSlash = true → (attrs.get T).any regular = false) := by
  constructor
  · intro h
    refine ⟨hb ▸ h.tidy b n rfl, fun hpath => ?_⟩
    rw [← Bool.not_eq_true]
    intro hreg
    exact nomatch h.notdir hpath b' m rfl (by rwa [hb', hfile])
  · rintro ⟨htidy, hreg⟩
    refine ⟨?_, ?_⟩
    · rintro b n h
      obtain ⟨rfl, rfl⟩ := Prod.mk.inj (Except.ok.inj h)
      rwa [hb]
    · rintro hpath b n h hfound
      obtain ⟨rfl, rfl⟩ := Prod.mk.inj (Except.ok.inj h)
      rw [hb', hfile, hreg hpath] at hfound
      cases hfound

theorem converted_norm {env : Env} {roots : Roots} {dirhand : DirHand} {path file : Str}
    {joined : Bool} (h : env.converted roots dirhand path = .ok (file, joined)) :
    ∃ p, file = normntpath p := by
  rw [Env.converted] at h
  split at h
  · cases h
  split at h
  · cases h
  split at h
  · exact ⟨_, (Prod.mk.inj (Except.ok.inj h)).1.symm⟩
  split at h
  · exact ⟨_, (Prod.mk.inj (Except.ok.inj h)).1.symm⟩
  split at h
  · cases h
  split at h
  · cases h
  · exact ⟨_, (Prod.mk.inj (Except.ok.inj h)).1.symm⟩

/-- The rule on a text that did not move. -/
theorem slashRule_plain (path p : Str) (hT : T = normntpath p) (old : Str) :
    SlashRule attrs path (.ok (⟨T, old⟩, T.length)) (slashCheck attrs ⟨T, old⟩ T.length) ↔
      fakeRoot T = false ∧ (path.getLast?.any isSlash = true →
        T.getLast? = some bslash ∨ (attrs.get T).any regular = false) := by
  by_cases hlast : T.getLast? = some bslash
  · obtain ⟨b, n, htext, hcheck⟩ := @slashCheck_plain attrs _ hlast old
    have hasked := @regular_slashed attrs _ hlast
    have hright : (path.getLast?.any isSlash = true →
        T.getLast? = some bslash ∨ (attrs.get T).any regular = false) := fun _ => Or.inl hlast
    rw [hcheck, and_iff_left hright]
    by_cases hcut : T.length > 1 ∧ ¬ (T.length = 3 ∧ T.getD 1 0 = colon)
    · -- The separator is cut, and what is left is the file.
      have hne : T ≠ [bslash] := by
        rintro rfl
        exact absurd hcut.1 (by decide)
      have hfile : fileOf T = cutText T := by
        rw [fileOf, if_pos ⟨hlast, not_driveRoot hcut.2, hne⟩, cutText, if_pos hcut]
      refine iff_of_true ⟨?_, fun _ b' m hb' hreg => ?_⟩ (fakeRoot_false hcut.2)
      · intro b' m hb' hb'last
        split at hb'
        · cases hb'
        obtain ⟨rfl, rfl⟩ := Prod.mk.inj (Except.ok.inj hb')
        rw [htext, cutText, if_pos hcut] at hb'last ⊢
        obtain ⟨front, hfront⟩ := List.getLast?_eq_some_iff.mp hb'last
        obtain ⟨all, hall⟩ := List.getLast?_eq_some_iff.mp hlast
        rw [hall, List.dropLast_concat] at hfront
        rw [hfront, List.append_assoc] at hall
        have hnil := normntpath_double (hT ▸ hall)
        rw [hall, hnil]
        exact Or.inr rfl
      · obtain ⟨rfl, rfl⟩ := Prod.mk.inj (Except.ok.inj hb')
        rw [if_pos (hfile ▸ hreg)]
    · -- Nothing is cut.
      rw [cutText, if_neg hcut] at htext ⊢
      rw [hasked, if_neg Bool.false_ne_true]
      by_cases hone : T = [bslash]
      · rw [slashRule_kept htext rfl (fileOf_root (Or.inr hone))]
        refine iff_of_true ⟨fun _ => Or.inr hone, fun _ => hasked⟩ (fakeRoot_false ?_)
        rw [hone]
        exact fun h => absurd h.1 (by decide)
      · have hthree : T.length = 3 ∧ T.getD 1 0 = colon := by
          by_contra hnot
          refine hcut ⟨?_, hnot⟩
          obtain ⟨all, hall⟩ := List.getLast?_eq_some_iff.mp hlast
          rw [hall, List.length_append, List.length_singleton]
          refine Nat.lt_add_of_pos_left (List.length_pos_iff.mpr ?_)
          rintro rfl
          exact hone hall
        by_cases hroot : isDriveRoot T = true
        · rw [slashRule_kept htext rfl (fileOf_root (Or.inl hroot))]
          refine iff_of_true ⟨fun _ => Or.inl hroot, fun _ => hasked⟩ ?_
          rw [fakeRoot, hroot, Bool.not_true, Bool.and_false]
        · refine iff_of_false (fun h => ?_) ?_
          · rcases h.tidy b n rfl (by rw [htext, hlast]) with h | h
            · exact hroot (htext ▸ h)
            · exact hone (htext ▸ h)
          · simp only [fakeRoot, hthree.1, hthree.2, hlast, Bool.eq_false_iff.mpr hroot]
            decide
  · have hcell : (Buffer.mk T old).cell (T.length - 1) = T.getLastD 0 := by
      by_cases hne : T = []
      · rw [hne]
        rfl
      · rw [cell_last hne, List.getLastD_eq_getLast?, List.getLast?_eq_some_getLast hne]
        rfl
    rw [slashCheck_open hlast hcell, slashRule_kept rfl rfl (fileOf_open hlast)]
    have htidy : Tidy T := fun h => absurd h hlast
    have hreal : fakeRoot T = false := by
      simp only [fakeRoot, hlast, decide_false, Bool.and_false, Bool.false_and]
    simp only [htidy, hreal, hlast, true_and, false_or]

/-- The rule behind a move. -/
theorem slashRule_moved {S stale : Str} (path p : Str) (hT : T = normntpath p)
    (hlen : S.length + 1 < T.length) (hfour : 4 < T.length) (hend : S.getLast? = T.getLast?)
    (hcell : (Buffer.mk S stale).cell (T.length - 1) = T.getLastD 0)
    (hform : S = T.drop 4 ∧ T.take 4 = longMark ∨
      S = bslash :: bslash :: T.drop 8 ∧ 8 < T.length) :
    SlashRule attrs path (.ok (⟨S, stale⟩, T.length)) (slashCheck attrs ⟨S, stale⟩ T.length) ↔
      (T.getLast? = some bslash → ∃ c, isAlpha c.toNat = true ∧ T = drivePre c) ∧
        (path.getLast?.any isSlash = true →
          T.getLast? = some bslash ∨ (attrs.get S).any regular = false) := by
  by_cases hlast : T.getLast? = some bslash
  · have hcell : (Buffer.mk S stale).cell (T.length - 1) = bslash := by
      rw [hcell, List.getLastD_eq_getLast?, hlast]
      rfl
    rw [hlast] at hend
    obtain ⟨b, n, htext, hcheck⟩ := @slashCheck_moved attrs _ _ _ hlen hfour hend hcell
    have hright : (path.getLast?.any isSlash = true →
        T.getLast? = some bslash ∨ (attrs.get S).any regular = false) := fun _ => Or.inl hlast
    have hroot : (isDriveRoot S = true ∨ S = [bslash]) ↔
        ∃ c, isAlpha c.toNat = true ∧ T = drivePre c := by
      rcases hform with ⟨hS, htake⟩ | ⟨hS, height⟩
      · have hT' : T = longMark ++ S := by rw [hS, ← htake, List.take_append_drop]
        constructor
        · rintro (h | h)
          · obtain ⟨c, hc, hSc⟩ := isDriveRoot_length h
            exact ⟨c, hc, by rw [hT', hSc]; rfl⟩
          · have hdouble : normntpath p = [bslash, bslash, quest] ++ [bslash, bslash] := by
              rw [← hT, hT', h]
              rfl
            cases normntpath_double hdouble
        · rintro ⟨c, hc, hTc⟩
          rw [hTc] at hS
          rw [hS]
          exact Or.inl (by simp [isDriveRoot, drivePre, longMark, hc])
      · constructor
        · rintro (h | h)
          · obtain ⟨c, hc, hSc⟩ := isDriveRoot_length h
            rw [hS] at hSc
            rw [← (List.cons.inj hSc).1] at hc
            exact absurd hc (by decide)
          · rw [hS] at h
            cases h
        · rintro ⟨c, -, rfl⟩
          exact absurd height (Nat.not_lt.mpr (Nat.le_succ 7))
    rw [hcheck, and_iff_left hright, ← hroot]
    by_cases htidy : Tidy S
    · rw [slashRule_kept htext rfl (fileOf_root (htidy hend))]
      exact iff_of_true ⟨htidy, fun _ => regular_slashed hend⟩ fun _ => htidy hend
    · refine iff_of_false (fun h => htidy (htext ▸ h.tidy b n rfl)) fun h => htidy fun _ => h hlast
  · have hopen : S.getLast? ≠ some bslash := hend ▸ hlast
    have htidy : Tidy S := fun h => absurd h hopen
    rw [slashCheck_open hlast hcell, slashRule_kept rfl rfl (fileOf_open hopen)]
    simp only [htidy, hlast, false_imp_iff, true_and, false_or]

end Check

/-- The rule of a conversion that succeeds. -/
theorem slashRule_converted {env : Env} {attrs : Attributes} {roots : Roots} {dirhand : DirHand}
    {path old file : Str} {joined : Bool}
    (hconv : env.converted roots dirhand path = .ok (file, joined)) :
    SlashRule attrs path (env.mkntpathathBuffer roots dirhand path old)
        (env.mkntpathath attrs roots dirhand path old) ↔ SlashOk attrs path file joined := by
  obtain ⟨p, hT⟩ := converted_norm hconv
  have hplain := @slashRule_plain attrs _ path p hT old
  rw [Env.mkntpathath, Env.mkntpathathBuffer, hconv, SlashOk]
  simp only [Except.map]
  cases joined with
  | false => simpa using hplain
  | true =>
    rcases moved_cases file old with ⟨hmoved, hsame⟩ |
      ⟨S, stale, hmoved, hdown, hlen, hfour, hend, hcell, hform⟩
    · rw [hmoved, hsame]
      simpa using hplain
    · have hne : S ≠ file := by
        rintro rfl
        omega
      rw [hmoved] at hcell
      rw [hmoved, hdown]
      simpa [hne] using slashRule_moved path p hT hlen hfour hend hcell hform

/-- **The rule** holds of a call exactly when it does of the text before the move. -/
theorem slash_rule_iff (env : Env) (attrs : Attributes) (roots : Roots) (dirhand : DirHand)
    (path old : Str) :
    SlashRule attrs path (env.mkntpathathBuffer roots dirhand path old)
        (env.mkntpathath attrs roots dirhand path old) ↔
      ∀ file joined, env.converted roots dirhand path = .ok (file, joined) →
        SlashOk attrs path file joined := by
  cases hconv : env.converted roots dirhand path with
  | error e =>
    rw [Env.mkntpathath, Env.mkntpathathBuffer, hconv]
    refine iff_of_true ⟨fun b n h => ?_, fun _ b n h => ?_⟩ fun file joined h => ?_
    · cases h
    · cases h
    · cases h
  | ok r =>
    obtain ⟨T, joined⟩ := r
    rw [slashRule_converted hconv]
    refine ⟨?_, fun h => h T joined rfl⟩
    rintro h file joined' he
    obtain ⟨rfl, rfl⟩ := Prod.mk.inj (Except.ok.inj he)
    exact h

/-- `C:\d\f` is the only file. -/
def Attributes.oneFile : Attributes where
  get s := if s = ascii ['C', ':', '\\', 'd', '\\', 'f'] then some 0x20 else none
  slashed s a h := by
    have hne : s ++ [bslash] ≠ ascii ['C', ':', '\\', 'd', '\\', 'f'] := by
      intro he
      have hlast := congrArg List.getLast? he
      rw [List.getLast?_concat] at hlast
      exact absurd hlast (by decide)
    rw [if_neg hne] at h
    cases h

/-- The file `f` of the directory `\\?\C:\d` is opened as `f/`: the zero is written four
characters behind the separator, which stays, and the file is not found with it. -/
theorem slash_left_behind_move :
    (Env.bare.mkntpathath .oneFile [] (.handle (some (longMark ++ ascii ['C', ':', '\\', 'd'])))
        (ascii ['f', '/']) []).toOption.map (·.1.text) =
      some (ascii ['C', ':', '\\', 'd', '\\', 'f', '\\']) ∧
    ¬ SlashRule .oneFile (ascii ['f', '/'])
      (Env.bare.mkntpathathBuffer [] (.handle (some (longMark ++ ascii ['C', ':', '\\', 'd'])))
        (ascii ['f', '/']) [])
      (Env.bare.mkntpathath .oneFile [] (.handle (some (longMark ++ ascii ['C', ':', '\\', 'd'])))
        (ascii ['f', '/']) []) := by
  have hout : Env.bare.mkntpathath .oneFile []
      (.handle (some (longMark ++ ascii ['C', ':', '\\', 'd']))) (ascii ['f', '/']) [] =
        .ok (⟨ascii ['C', ':', '\\', 'd', '\\', 'f', '\\'], ascii ['\\', 'f'] ++ [0, 0]⟩, 10) := by
    decide
  refine ⟨by rw [hout]; rfl, fun h => ?_⟩
  rcases h.tidy _ _ hout rfl with h | h
  · exact absurd h (by decide)
  · exact absurd h (by decide)

/-! ## Where the path says it -/

section Call

variable {env : Env} {attrs : Attributes} {roots : Roots} {v : Vol} {ds : List Str}
  {trailing : Bool} {path old : Str}

/-- A path with a separator at its end does not end with a name. -/
theorem endsOpen_of_slash (hplain : Plain path) (hrel : isRelative path = true)
    (hslash : path.getLast?.any isSlash = true) : endsOpen path = true := by
  obtain ⟨D, q, ps, hD, hrev, -, htext⟩ := normntpath_relative hplain hrel
  obtain ⟨front, c, rfl⟩ := (List.eq_nil_or_concat' path).resolve_left (by
    rintro rfl
    cases hslash)
  have hsep : isSlash c = true := by simpa using hslash
  have hends : Norm.endsAt .start (front ++ [c]) = true := by
    have hne : (components front).foldl Norm.next .start ≠ .start :=
      Norm.foldl_ne_start (components_ne_nil front)
    rw [Norm.endsAt, components_trailing front hsep, List.dropLast_concat,
      List.getLastD_eq_getLast?, List.getLast?_concat]
    simp [Norm.ends, hne, move]
  have hno : ∀ p ∈ q :: ps, ∀ x ∈ p, isSlash x = false := by
    intro p hp
    have hp : p ∈ (net (moves (front ++ [c]))).2 ++ D := by
      rw [← hrev]
      exact List.mem_reverse.mpr hp
    rcases List.mem_append.mp hp with hp | hp
    · exact (mem_net hp).2.noSlash
    · rcases dots_cases hD p hp with rfl | rfl <;> decide
  rw [endsOpen, htext, hends, components_below isSlash_bslash (hno q (by simp))
    fun p hp => hno p (by simp [hp]), if_pos rfl, List.getLastD_eq_getLast?, List.getLast?_concat]
  rfl

theorem drivePre_iff (hv : DirVol env.drives v) (names : List Str) :
    (∃ c, isAlpha c.toNat = true ∧ ntPath .long v names.reverse true = drivePre c) ↔
      (∃ c, v = .drive c) ∧ names = [] := by
  cases v with
  | drive c =>
    have hlong : ∀ c' : UInt16, ntPath .long (.drive c) names.reverse true = drivePre c' ↔
        c = c' ∧ names = [] := by
      intro c'
      have hpre : ntPath .long (.drive c) names.reverse true =
          longMark ++ c :: colon :: (spell bslash names.reverse ++ [bslash]) := by simp [ntPath, belowVol]
      rw [hpre, drivePre, List.append_cancel_left_eq, List.cons.injEq, List.cons.injEq,
        and_iff_right rfl, List.append_eq_singleton_iff]
      simp [spell_eq_nil]
    simp only [hlong]
    constructor
    · rintro ⟨c', -, -, hnil⟩
      exact ⟨⟨c, rfl⟩, hnil⟩
    · rintro ⟨-, hnil⟩
      exact ⟨c, hv.1, rfl, hnil⟩
  | share server name =>
    refine iff_of_false ?_ (by simp)
    rintro ⟨c, -, hc⟩
    have h5 := congrArg (fun s : Str => s[5]?) hc
    simp [ntPath, drivePre, longMark, uncMark, colon] at h5

theorem length_ntPath_long (names : List Str) (e : Bool) : 3 < (ntPath .long v names e).length := by
  cases v <;> simp [ntPath, longMark]

variable (h : AtCall env roots v ds trailing path)

include h

/-- The text before the move is the joined one. -/
theorem converted_joined {file : Str} {joined : Bool}
    (hconv : env.converted roots (.handle (some (ntPath .long v ds trailing))) path =
      .ok (file, joined)) : joined = true ∧ file = joinedText v ds trailing path := by
  obtain ⟨hne, habs⟩ := not_absolute_relative h.plain h.relative
  rw [Env.converted, Env.mkntpath2,
    mkntpath2From_relative 2 h.plain h.relative h.unmarked h.unhooked] at hconv
  by_cases hlen : path.length ≥ 259
  · rw [if_pos hlen] at hconv
    cases hconv
  · rw [if_neg hlen] at hconv
    simp only [if_neg hne, habs, Bool.false_eq_true, if_false] at hconv
    split at hconv
    · cases hconv
    · obtain ⟨hfile, hjoined⟩ := Prod.mk.inj (Except.ok.inj hconv)
      exact ⟨hjoined.symm, hfile.symm⟩

theorem getLast_joinedText (hk : (net (moves path)).1 ≤ ds.length) :
    (joinedText v ds trailing path).getLast? = some bslash ↔ endsOpen path = true := by
  have hle : (net (moves path)).1 ≤ (volParts v ++ ds).length := by
    rw [List.length_append]
    omega
  rw [joinedText_eq h hle]
  obtain ⟨L, hL⟩ : ∃ L, L = (volParts v ++ ds).take
    ((volParts v ++ ds).length - (net (moves path)).1) ++ (net (moves path)).2.reverse := ⟨_, rfl⟩
  have hne : L ≠ [] := by
    have hvol : 0 < (volParts v).length := by cases v <;> exact Nat.zero_lt_succ _
    rw [hL, ← List.length_pos_iff, List.length_append, List.length_take, List.length_append]
    omega
  have hproper : ∀ p ∈ L, Proper p := by
    intro p hp
    rw [hL] at hp
    rcases List.mem_append.mp hp with hp | hp
    · exact proper_volParts h p (List.mem_of_mem_take hp)
    · exact (mem_net (List.mem_reverse.mp hp)).2
  rw [← hL]
  have hlast := @getLast_below _ (endsOpen path) _ isSlash_bslash hproper hne
  cases he : endsOpen path with
  | true =>
    rw [belowVol, if_pos rfl, ← List.cons_append, List.getLast?_concat]
    exact iff_of_true rfl rfl
  | false =>
    rw [he] at hlast
    have hbelow : belowVol bslash L false ≠ [] := by
      rw [belowVol, if_neg Bool.false_ne_true, List.append_nil, Ne, spell_eq_nil]
      exact hne
    rw [List.getLast?_cons_of_ne_nil hbelow]
    refine iff_of_false (fun hb => ?_) Bool.false_ne_true
    rw [hb] at hlast
    exact absurd hlast (by decide)

/-- **For a path below the volume** the rule holds when the path ends with a name, and when
what it ends at is too deep to be downgraded or the root of its drive. -/
theorem slash_rule_below (hk : (net (moves path)).1 ≤ ds.length) {file : Str} {joined : Bool}
    (hconv : env.converted roots (.handle (some (ntPath .long v ds trailing))) path =
      .ok (file, joined)) :
    SlashRule attrs path
        (env.mkntpathathBuffer roots (.handle (some (ntPath .long v ds trailing))) path old)
        (env.mkntpathath attrs roots (.handle (some (ntPath .long v ds trailing))) path old) ↔
      (endsOpen path = true →
        downgrade 260 (ntPath .long v (clamp ds.reverse (moves path)).reverse true) =
          ntPath .long v (clamp ds.reverse (moves path)).reverse true ∨
        (∃ c, v = .drive c) ∧ clamp ds.reverse (moves path) = []) := by
  obtain ⟨rfl, rfl⟩ := converted_joined h hconv
  have hlast := getLast_joinedText h hk
  have hright : path.getLast?.any isSlash = true →
      (joinedText v ds trailing path).getLast? = some bslash ∨
        (attrs.get (downgrade 260 (joinedText v ds trailing path))).any regular = false :=
    fun hslash => Or.inl (hlast.mpr (endsOpen_of_slash h.plain h.relative hslash))
  have htext : joinedText v ds trailing path = _ := joinedText_low h hk
  obtain ⟨names, hnames⟩ : ∃ names, names = clamp ds.reverse (moves path) := ⟨_, rfl⟩
  rw [← hnames] at htext ⊢
  have hreal : fakeRoot (joinedText v ds trailing path) = false := by
    refine fakeRoot_false fun hlen => ?_
    rw [htext] at hlen
    exact absurd hlen.1 (length_ntPath_long names.reverse _).ne'
  rw [slashRule_converted hconv, SlashOk, and_iff_left (by simpa using hright), hlast]
  cases hopen : endsOpen path with
  | false => simp [hreal]
  | true =>
    rw [hopen] at htext
    rw [htext] at hreal ⊢
    by_cases hsame : downgrade 260 (ntPath .long v names.reverse true) = ntPath .long v names.reverse true
    · simp [hsame, hreal]
    · rw [if_pos ⟨rfl, hsame⟩]
      simp only [hsame, false_or, true_imp_iff]
      exact drivePre_iff h.vol names

end Call

end ApeShim.Nt
