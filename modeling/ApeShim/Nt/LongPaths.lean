import ApeShim.Nt.At

/-!
Paths too long to lose their `\\?\`: NT takes the components behind it as they are, so
the text `__mkntpath2` writes there has to be normalized.
-/

namespace ApeShim.Nt
open Walk

/-! ## Where a conversion ends -/

/-- `__mkntpath2` up to the path that is given a root. -/
def Env.stages (env : Env) (roots : Roots) (path : Str) : Roots × Except NtErr Str :=
  let path := (env.procfs path).getD path
  let path := reroot path
  let path := if isRelative path then (env.uncRel roots path).getD path else path
  if slashAt path 0 && slashAt path 1 then (uncNote roots path, .ok (env.divert path))
  else if isCollapsedUnc roots path then
    if width8 path + 2 > env.pathMax then (roots, .error .enametoolong)
    else (roots, .ok (env.divert (slash :: path)))
  else (roots, .ok (env.divert path))

/-- The path a climb out of a share goes on with. -/
def Env.climb (env : Env) (h : Head) : Option Str :=
  h.share.bind fun root =>
    let (body, climbed) := normuncrest h.rest
    let server := root.takeWhile fun c => !isSlash c
    let full := slash :: slash :: server ++ body
    if climbed ∧ width8 body < env.pathMax - 1 ∧ width8 full < env.pathMax ∧
        (env.serverDir server).isSome = true then
      some full
    else none

/-- The root a path is given at last, and what is behind it. -/
def Env.landing (env : Env) : Nat → Roots → Str → Option Head
  | 0, _, _ => none
  | fuel + 1, roots, path =>
      match env.stages roots path with
      | (_, .error _) => none
      | (roots, .ok q) =>
          match env.head q with
          | .error _ => none
          | .ok h =>
              match env.climb h with
              | some full => landing env fuel roots full
              | none => some h

theorem Env.landing_succ (env : Env) (fuel : Nat) (roots : Roots) (path : Str) :
    env.landing (fuel + 1) roots path =
      match env.stages roots path with
      | (_, .error _) => none
      | (roots, .ok q) =>
          match env.head q with
          | .error _ => none
          | .ok h =>
              match env.climb h with
              | some full => env.landing fuel roots full
              | none => some h := rfl

/-- What is written behind the root. -/
def Head.body (h : Head) : Str :=
  match h.share with
  | none => normntpath h.rest
  | some _ => (normuncrest h.rest).1

theorem mkntpath2From_stages (env : Env) (fuel : Nat) (roots : Roots) (path : Str) :
    (env.mkntpath2From (fuel + 1) roots path).2 = (env.stages roots path).2.bind
      (env.finish fun full => (env.mkntpath2From fuel (env.stages roots path).1 full).2) := by
  rw [Env.mkntpath2From, Env.stages]
  generalize reroot ((env.procfs path).getD path) = q
  generalize (if isRelative q = true then (env.uncRel roots q).getD q else q) = r
  simp only
  split
  · rfl
  · split
    · split <;> rfl
    · rfl

/-- The roots a path can be given. -/
theorem head_cases {env : Env} {q : Str} {l : Head} (h : env.head q = .ok l) :
    (l.share = none ∧ (l.pre = [] ∨ l.pre = longMark ++ uncMark ∨
      ∃ c, isAlpha c.toNat = true ∧ l.pre = drivePre c)) ∨
    ∃ root, l.share = some root ∧
      l.pre = longMark ++ uncMark ++ root.map (fun c => if c = slash then bslash else c) := by
  rw [Env.head] at h
  split at h
  · rename_i hc
    simp only [Bool.and_eq_true] at hc
    obtain rfl := Except.ok.inj h
    exact Or.inl ⟨rfl, Or.inr (Or.inr ⟨_, hc.1.1.2, rfl⟩)⟩
  split at h
  · rename_i hc
    simp only [Bool.and_eq_true] at hc
    obtain rfl := Except.ok.inj h
    exact Or.inl ⟨rfl, Or.inr (Or.inr ⟨_, hc.1.1.2, rfl⟩)⟩
  split at h
  · rename_i hc
    simp only [driveMark, Bool.and_eq_true] at hc
    obtain rfl := Except.ok.inj h
    exact Or.inl ⟨rfl, Or.inr (Or.inr ⟨_, hc.1.1, rfl⟩)⟩
  split at h
  · obtain rfl := Except.ok.inj h
    exact Or.inl ⟨rfl, Or.inl rfl⟩
  split at h
  · dsimp only at h
    split at h
    · obtain rfl := Except.ok.inj h
      exact Or.inl ⟨rfl, Or.inr (Or.inl rfl)⟩
    · split at h
      · cases h
      · obtain rfl := Except.ok.inj h
        exact Or.inr ⟨_, rfl, rfl⟩
  split at h
  · obtain rfl := Except.ok.inj h
    exact Or.inl ⟨rfl, Or.inr (Or.inr ⟨_, env.cosmosDrive_alpha, rfl⟩)⟩
  · obtain rfl := Except.ok.inj h
    exact Or.inl ⟨rfl, Or.inl rfl⟩

/-- **The answer** behind a root is the root, and the rest normalized. -/
theorem landing_of_ok (env : Env) (fuel : Nat) (roots : Roots) (path : Str) {out : Str}
    (h : (env.mkntpath2From fuel roots path).2 = .ok out) :
    ∃ l, env.landing fuel roots path = some l ∧ (∃ q, env.head q = .ok l) ∧
      (l.pre ≠ [] → out = downgrade 244 (l.pre ++ l.body)) := by
  induction fuel generalizing roots path with
  | zero => cases h
  | succ fuel ih =>
    rw [mkntpath2From_stages] at h
    rw [Env.landing_succ]
    rcases hs : env.stages roots path with ⟨roots', e | q⟩
    · rw [hs] at h
      cases h
    · rw [hs] at h
      have h : env.finish (fun full => (env.mkntpath2From fuel roots' full).2) q = .ok out := h
      cases hh : env.head q with
      | error e =>
        rw [Env.finish, hh] at h
        cases h
      | ok l =>
        simp only [hh]
        have hcases := head_cases hh
        obtain ⟨pre, rest, room, share⟩ := l
        cases share with
        | none =>
          refine ⟨⟨pre, rest, room, none⟩, rfl, ⟨q, hh⟩, fun hpre => ?_⟩
          rw [env.finish_flat hh fun ht => hpre ht.1] at h
          split at h
          · cases h
          · exact (Except.ok.inj h).symm
        | some root =>
          have hpre : pre ≠ [] := by
            rcases hcases with ⟨hs, -⟩ | ⟨root, -, hp⟩
            · cases hs
            · rintro rfl
              cases hp
          rw [env.finish_share hh hpre] at h
          split at h
          · cases h
          · split at h
            · rename_i hclimb
              have hfull : env.climb ⟨pre, rest, room, some root⟩ = some (slash :: slash ::
                  (root.takeWhile fun c => !isSlash c) ++ (normuncrest rest).1) := if_pos hclimb
              rw [hfull]
              exact ih roots' _ h
            · rename_i hclimb
              have hnone : env.climb ⟨pre, rest, room, some root⟩ = none := if_neg hclimb
              rw [hnone]
              exact ⟨⟨pre, rest, room, some root⟩, rfl, ⟨q, hh⟩, fun _ => (Except.ok.inj h).symm⟩

/-! ## What should be written -/

/-- The names behind a root: a share has no separator of its own. -/
def Head.text (h : Head) (ps : List Str) (trailing : Bool) : Str :=
  match h.share with
  | none => (belowVol bslash ps trailing).tail
  | some _ => belowVol bslash ps trailing

/-- The path behind the root is written as the names it comes to, where `..` stays at the
root, with at most one separator behind them. -/
structure Normalised (h : Head) (out : Str) : Prop where
  noSlash : slash ∉ out
  names : ∃ trailing, out = h.pre ++ h.text (resolved (components h.rest)) trailing

/-- No component behind a root other than a share is taken for dots it is not. -/
def ReadAsIs (h : Head) : Prop := h.share = none → Legible h.rest

/-- The path behind a root other than a share starts with a name, which no `..` takes back. -/
def KeepsRoot (h : Head) : Prop :=
  h.share = none → h.rest = [] ∨ Norm.keepsFirst h.rest = true

section Body

variable {w : Str}

theorem resolved_proper (w : Str) : ∀ p ∈ resolved (components w), Proper p := by
  intro p hp
  rw [resolved, clamp_eq_net, List.drop_nil, List.append_nil] at hp
  exact (mem_net (List.mem_reverse.mp hp)).2

/-- No `/` is written. -/
theorem normLoop_noSlash (w o : Str) (ho : slash ∉ o) : slash ∉ normLoop w o := by
  have hup : ∀ o : Str, slash ∉ o → slash ∉ upOne o := by
    intro o ho
    have hsub : ∀ x ∈ o.dropWhile (· = bslash), x ∈ o := fun x hx =>
      (List.dropWhile_suffix _).subset hx
    rw [upOne]
    split
    · exact List.not_mem_nil
    · rename_i d e hd
      rw [hd] at hsub
      have hde : slash ∉ d :: e := fun hm => ho (hsub _ hm)
      split
      · simp only [List.mem_cons, not_or] at hde ⊢
        exact ⟨by decide, by decide, hde⟩
      · split
        · exact hde
        · exact fun hm => hde ((List.dropWhile_suffix _).subset hm)
  induction w, o using normLoop.induct with
  | case1 o => simpa [normLoop] using ho
  | case2 c rest o c' hskip ih =>
    rw [normLoop.eq_def]
    dsimp only
    rw [if_pos hskip]
    exact ih ho
  | case3 c o c' hskip hdot =>
    rw [normLoop.eq_def]
    dsimp only
    rw [if_neg hskip, if_pos hdot]
    simpa using ho
  | case4 c o c' hskip d e hdot ih =>
    rw [normLoop.eq_def]
    dsimp only
    rw [if_neg hskip, if_pos hdot]
    exact ih ho
  | case5 c rest o c' hskip hdot hup' ih =>
    rw [normLoop.eq_def]
    dsimp only
    rw [if_neg hskip, if_neg hdot, if_pos hup']
    exact ih (hup o ho)
  | case6 c rest o c' hskip hdot hup' ih =>
    rw [normLoop.eq_def]
    dsimp only
    rw [if_neg hskip, if_neg hdot, if_neg hup']
    refine ih ?_
    rw [List.mem_cons, not_or]
    refine ⟨fun he => ?_, ho⟩
    by_cases hc : c = slash
    · have hc' : c' = bslash := if_pos hc
      rw [hc'] at he
      exact absurd he (by decide)
    · have hc' : c' = c := if_neg hc
      rw [hc'] at he
      exact hc he.symm

theorem resolved_net (w : Str) : resolved (components w) = (net (moves w)).2.reverse := by
  rw [resolved, clamp_eq_net, List.drop_nil, List.append_nil]
  rfl

/-- **A rest that keeps its first name** is normalized. -/
theorem normntpath_kept (hread : Legible w) (h : w = [] ∨ Norm.keepsFirst w = true) :
    ∃ t, normntpath w = (belowVol bslash (resolved (components w)) t).tail := by
  rcases h with rfl | h
  · exact ⟨false, rfl⟩
  · obtain ⟨p, ps, hcomp⟩ := List.exists_cons_of_ne_nil (components_ne_nil w)
    have hnamed : named p = true := by
      rw [Norm.keepsFirst, hcomp, Bool.and_eq_true] at h
      exact h.1
    have hmove : move p = .name p := by
      simp only [named, Bool.and_eq_true, decide_eq_true_eq, ne_eq] at hnamed
      rw [move, if_neg (by tauto), if_neg hnamed.2]
    have hp : Proper p := proper_of_mem_components (by rw [hcomp]; exact List.mem_cons_self) hmove
    have hhead := head_of_components hcomp hp
    obtain ⟨D, -, hrun, -, hkeeps⟩ := Norm.run_start hhead
    rw [hkeeps.mpr h, List.append_nil] at hrun
    have hne : (net (moves w)).2 ≠ [] := by
      intro hnil
      rw [hnil] at hrun
      exact Norm.foldl_ne_start (components_ne_nil w) hrun
    obtain ⟨q, qs, hq⟩ := List.exists_cons_of_ne_nil (List.reverse_ne_nil_iff.mpr hne)
    have hrev : (net (moves w)).2 = (q :: qs).reverse := by rw [← hq, List.reverse_reverse]
    rw [hrev] at hrun
    refine ⟨Norm.endsAt .start w, ?_⟩
    rw [normntpath_text hread hhead hrun, resolved_net, hq]
    simp [belowVol, spell]

/-- A text that no names behind a root are written as. -/
def Rough (s : Str) : Prop :=
  s.head? = some bslash ∨ ∃ q r, s = q ++ r ∧ (q = [dot] ∨ q = dotdot) ∧ Below r

theorem rough_ne {s : Str} (h : Rough s) {ps : List Str} (hp : ∀ p ∈ ps, Proper p) (t : Bool) :
    s ≠ (belowVol bslash ps t).tail := by
  rintro rfl
  cases ps with
  | nil =>
    have hnil : (belowVol bslash [] t).tail = [] := by cases t <;> rfl
    rw [hnil] at h
    rcases h with h | ⟨q, r, hs, hq, -⟩
    · cases h
    · obtain ⟨rfl, -⟩ := List.append_eq_nil_iff.mp hs.symm
      rcases hq with hq | hq
      · cases hq
      · cases hq
  | cons p ps =>
    have hproper := hp p List.mem_cons_self
    have htail : (belowVol bslash (p :: ps) t).tail = p ++ belowVol bslash ps t := by
      simp [belowVol, spell]
    rw [htail] at h
    rcases h with h | ⟨q, r, hs, hq, hr⟩
    · cases p with
      | nil => exact hproper.ne_nil rfl
      | cons c p =>
        have hc := hproper.noSlash c List.mem_cons_self
        rw [show c = bslash from Option.some.inj h] at hc
        exact absurd hc (by decide)
    · have hfirst := congrArg (List.takeWhile fun c => !isSlash c) hs
      have hdots : ∀ x ∈ q, isSlash x = false := by rcases hq with rfl | rfl <;> decide
      rw [takeWhile_noSlash hproper.noSlash (below_belowVol isSlash_bslash),
        takeWhile_noSlash hdots hr] at hfirst
      rcases hq with rfl | rfl
      · exact hproper.ne_dot hfirst
      · exact hproper.ne_dotdot hfirst

/-- A state with dots at the bottom is written with them in front. -/
theorem rough_of_dots {s : Norm} (hread : Legible w) (hc : s.Clean)
    (hstart : s = .start → ∃ c ∈ w.head?, isSlash c = false) {R D : List Str} {k : Nat}
    (hD : Norm.Dots k D) (hne : D ≠ []) (hrun : s.run w = ⟨false, R ++ D⟩) :
    Rough (normLoop w s.out) := by
  obtain ⟨p, ps, hp⟩ := List.exists_cons_of_ne_nil
    (List.reverse_ne_nil_iff.mpr (List.append_ne_nil_of_right_ne_nil R hne))
  have hrev : R ++ D = (p :: ps).reverse := by rw [← hp, List.reverse_reverse]
  have hmem : p ∈ D := by
    have hlast : (R ++ D).getLast? = some p := by
      rw [hrev, List.getLast?_reverse]
      rfl
    rw [getLast_append_ne hne] at hlast
    exact List.mem_of_getLast? hlast
  rw [hrev] at hrun
  rw [Norm.normLoop_text hread hc hstart hrun]
  refine Or.inr ⟨p, belowVol bslash ps (s.endsAt w), ?_, dots_cases hD p hmem,
    below_belowVol isSlash_bslash⟩
  simp [belowVol]

/-- Behind two separators the text starts with one, or with dots. -/
theorem rough_rooted (hread : Legible w) : Rough (normLoop w [bslash, bslash]) := by
  have hclean : Norm.Clean ⟨true, []⟩ := by
    intro c hc
    cases hc
  have hns : (⟨true, []⟩ : Norm) ≠ .start := by simp [Norm.start]
  have hrun := Norm.run_above (Or.inl rfl : Norm.IsRoot ⟨true, []⟩) (S := []) (by simp) w
  by_cases hk : (net (moves w)).1 = 0
  · rw [Norm.above, if_pos (by rw [hk]; exact Nat.zero_le _)] at hrun
    obtain ⟨-, r, hr, hor⟩ := Norm.normLoop_run w hread ⟨true, []⟩ hclean fun he => absurd he hns
    have hr : normLoop w [bslash, bslash] = r.reverse := hr
    have hout : ∃ X, (Norm.run ⟨true, []⟩ w).out.reverse = bslash :: bslash :: X := by
      have hst : Norm.run ⟨true, []⟩ w = _ := hrun
      rw [hst, Norm.out, Norm.reverse_written]
      exact ⟨_, rfl⟩
    obtain ⟨X, hX⟩ := hout
    left
    rw [hr]
    rcases hor with ⟨-, rfl⟩ | ⟨-, hr'⟩
    · rw [hX]
      rfl
    · rw [← hr', List.reverse_cons] at hX
      cases hrr : r.reverse with
      | nil =>
        rw [hrr] at hX
        cases hX
      | cons x y =>
        rw [hrr] at hX
        exact congrArg some (List.cons.inj hX).1
  · rw [Norm.above, if_neg (by rw [List.length_nil]; omega)] at hrun
    exact rough_of_dots hread hclean (fun he => absurd he hns) (Norm.dots_dots _)
      (Norm.dots_ne_nil _) hrun

/-! A text behind one separator is one behind two, but for that separator. -/

theorem getLast_dropWhile {f : UInt16 → Bool} {o d : Str} {c : UInt16} (ho : o.getLast? = some c)
    (hd : o.dropWhile f = d) (hne : d ≠ []) : d.getLast? = some c := by
  rw [← ho, ← List.takeWhile_append_dropWhile (p := f) (l := o), hd, getLast_append_ne hne]

theorem upOne_base {o : Str} (ho : o.getLast? = some bslash) :
    upOne (o ++ [bslash]) = upOne o ∨
      (upOne (o ++ [bslash]) = upOne o ++ [bslash] ∧ (upOne o).getLast? = some bslash) := by
  have hdrop := @List.dropWhile_append _ (fun c => decide (c = bslash)) o [bslash]
  cases hd : o.dropWhile (fun c => decide (c = bslash)) with
  | nil =>
    left
    rw [hd] at hdrop
    have hdrop : (o ++ [bslash]).dropWhile (fun c => decide (c = bslash)) = [] := hdrop
    rw [upOne, upOne, hdrop, hd]
  | cons d e =>
    right
    have hlast := getLast_dropWhile ho hd (by simp)
    have hne : d ≠ bslash := by
      have := List.head_dropWhile_not (fun c => decide (c = bslash)) (l := o) (by simp [hd])
      simpa [hd] using this
    rw [hd] at hdrop
    have hdrop : (o ++ [bslash]).dropWhile (fun c => decide (c = bslash)) = d :: (e ++ [bslash]) := hdrop
    rcases e with _ | ⟨x, e⟩
    · exact absurd (Option.some.inj hlast) hne
    · have hnot : ∀ (c : UInt16) (tail : Str), (d :: c :: tail).getLast? = some bslash → c = dot →
          tail ≠ [] := by
        rintro c _ h rfl rfl
        exact absurd (Option.some.inj (show some dot = some bslash from h)) (by decide)
      have hback : ((d :: x :: e).dropWhile fun c => decide (c ≠ bslash)) ≠ [] := by
        rw [ne_eq, List.dropWhile_eq_nil_iff]
        intro hall
        have := hall bslash (List.mem_of_getLast? hlast)
        simp at this
      have hrest := @List.dropWhile_append _ (fun c => decide (c ≠ bslash)) (d :: x :: e) [bslash]
      rw [if_neg (by simpa using hback)] at hrest
      have htail : x = dot → (e ++ [bslash]).head? = e.head? ∧ e ≠ [] := by
        intro hx
        have he := hnot x e hlast hx
        cases e with
        | nil => exact absurd rfl he
        | cons y e => exact ⟨rfl, he⟩
      rw [upOne, upOne, hdrop, hd]
      simp only [List.cons_append, List.head?_cons, List.tail_cons, Option.some.injEq, reduceCtorEq,
        false_or]
      have hiff : (d = dot ∧ x = dot ∧ (e ++ [bslash] = [] ∨ (e ++ [bslash]).head? = some bslash)) ↔
          (d = dot ∧ x = dot ∧ (e = [] ∨ e.head? = some bslash)) := by
        refine and_congr_right fun _ => and_congr_right fun hx => ?_
        obtain ⟨hh, he⟩ := htail hx
        simp [hh, he]
      by_cases hdd : d = dot ∧ x = dot ∧ (e = [] ∨ e.head? = some bslash)
      · rw [if_pos hdd, if_pos (hiff.mpr hdd)]
        exact ⟨rfl, hlast⟩
      · rw [if_neg hdd, if_neg fun h => hdd (hiff.mp h)]
        by_cases hd1 : d = dot ∧ x = bslash
        · rw [if_pos hd1, if_pos hd1]
          exact ⟨rfl, hlast⟩
        · rw [if_neg hd1, if_neg hd1]
          exact ⟨hrest, getLast_dropWhile hlast rfl hback⟩

theorem normLoop_base (w o : Str) (ho : o.getLast? = some bslash) :
    normLoop w (o ++ [bslash]) = normLoop w o ∨
      (normLoop w (o ++ [bslash]) = bslash :: normLoop w o ∧ (normLoop w o).head? = some bslash) := by
  have hhead : ∀ o : Str, o.getLast? = some bslash → (o ++ [bslash]).head? = o.head? := by
    intro o ho
    cases o with
    | nil => cases ho
    | cons c o => rfl
  induction w, o using normLoop.induct with
  | case1 o =>
    right
    simp [normLoop, ho]
  | case2 c rest o c' hskip ih =>
    have hskip' : 1 < (o ++ [bslash]).length ∧ c' = bslash ∧ (o ++ [bslash]).head? = some bslash :=
      ⟨by simp; omega, hskip.2.1, by rw [hhead o ho]; exact hskip.2.2⟩
    rw [normLoop.eq_def (c :: rest) (o ++ [bslash]), normLoop.eq_def (c :: rest) o]
    dsimp only
    rw [if_pos hskip, if_pos hskip']
    exact ih ho
  | case3 c o c' hskip hdot =>
    have hne : ¬ (1 < (o ++ [bslash]).length ∧ c' = bslash ∧ (o ++ [bslash]).head? = some bslash) := by
      rintro ⟨-, hb, -⟩
      rw [hdot.2.1] at hb
      exact absurd hb (by decide)
    rw [normLoop.eq_def [c] (o ++ [bslash]), normLoop.eq_def [c] o]
    dsimp only
    rw [if_neg hskip, if_neg hne, hhead o ho, if_pos hdot, if_pos hdot]
    right
    simp [ho]
  | case4 c o c' hskip d e hdot ih =>
    have hne : ¬ (1 < (o ++ [bslash]).length ∧ c' = bslash ∧ (o ++ [bslash]).head? = some bslash) := by
      rintro ⟨-, hb, -⟩
      rw [hdot.2.1] at hb
      exact absurd hb (by decide)
    rw [normLoop.eq_def (c :: d :: e) (o ++ [bslash]), normLoop.eq_def (c :: d :: e) o]
    dsimp only
    rw [if_neg hskip, if_neg hne, hhead o ho, if_pos hdot, if_pos hdot]
    exact ih ho
  | case5 c rest o c' hskip hdot hup ih =>
    have hne : ¬ (1 < (o ++ [bslash]).length ∧ c' = bslash ∧ (o ++ [bslash]).head? = some bslash) := by
      rintro ⟨-, hb, -⟩
      rw [hup.2.1] at hb
      exact absurd hb (by decide)
    rw [normLoop.eq_def (c :: rest) (o ++ [bslash]), normLoop.eq_def (c :: rest) o]
    dsimp only
    rw [if_neg hskip, if_neg hne, hhead o ho, if_neg hdot, if_neg hdot, if_pos hup, if_pos hup]
    rcases upOne_base ho with he | ⟨he, hlast⟩
    · exact Or.inl (by rw [he])
    · rw [he]
      exact ih hlast
  | case6 c rest o c' hskip hdot hup ih =>
    rw [normLoop.eq_def (c :: rest) (o ++ [bslash]), normLoop.eq_def (c :: rest) o]
    dsimp only
    rw [if_neg hskip, hhead o ho, if_neg hdot, if_neg hdot, if_neg hup, if_neg hup]
    by_cases hb : c' = bslash ∧ o.head? = some bslash
    · -- The second separator is written behind one, and dropped behind two.
      have hone : o = [bslash] := by
        rcases o with _ | ⟨x, _ | ⟨y, o⟩⟩
        · cases ho
        · rw [show x = bslash from Option.some.inj ho]
        · exact absurd ⟨by simp, hb⟩ hskip
      subst hone
      have hc : (if c = slash then bslash else c) = bslash := hb.1
      rw [if_pos ⟨by decide, hb⟩, hc]
      exact Or.inl rfl
    · rw [if_neg fun h => hb h.2]
      refine ih ?_
      cases o with
      | nil => cases ho
      | cons x o => rw [List.getLast?_cons_cons]; exact ho

theorem normntpath_rough (hread : Legible w) (hne : w ≠ []) (h : Norm.keepsFirst w = false) :
    Rough (normntpath w) := by
  cases w with
  | nil => exact absurd rfl hne
  | cons c w =>
    by_cases hc : isSlash c = true
    · have hread' : Legible w := by
        rw [Legible, components_sep hc, List.forall_mem_cons] at hread
        exact hread.2
      have hstep : normntpath (c :: w) = normLoop w [bslash] := normLoop_sep hc (by simp)
      rw [hstep]
      rcases normLoop_base w [bslash] rfl with he | ⟨-, he⟩
      · rw [← he]
        exact rough_rooted hread'
      · exact Or.inl he
    · have hhead : ∃ d ∈ (c :: w).head?, isSlash d = false := ⟨c, rfl, by simpa using hc⟩
      obtain ⟨D, hD, hrun, -, hkeeps⟩ := Norm.run_start hhead
      have hDne : D ≠ [] := by
        intro hnil
        rw [hkeeps.mp hnil] at h
        cases h
      exact rough_of_dots (s := .start) hread (by intro c hc; cases hc) (fun _ => hhead) hD hDne hrun

end Body

/-! ## When it is -/

section Long

variable {env : Env} {q : Str} {h : Head}

theorem head_noSlash (hh : env.head q = .ok h) : slash ∉ h.pre := by
  have hlong : slash ∉ longMark ++ uncMark := by decide
  rcases head_cases hh with ⟨-, hp | hp | ⟨c, hc, hp⟩⟩ | ⟨root, -, hp⟩
  · rw [hp]
    exact List.not_mem_nil
  · rw [hp]
    exact hlong
  · rw [hp]
    intro hm
    simp only [drivePre, longMark, List.mem_append, List.mem_cons, List.not_mem_nil, or_false] at hm
    rcases hm with (hm | hm | hm | hm) | hm | hm | hm
    · exact absurd hm (by decide)
    · exact absurd hm (by decide)
    · exact absurd hm (by decide)
    · exact absurd hm (by decide)
    · rw [← hm] at hc
      exact absurd hc (by decide)
    · exact absurd hm (by decide)
    · exact absurd hm (by decide)
  · rw [hp, List.mem_append, not_or]
    refine ⟨hlong, fun hm => ?_⟩
    obtain ⟨x, -, hx⟩ := List.mem_map.mp hm
    split at hx
    · exact absurd hx (by decide)
    · rename_i hne
      exact hne hx

theorem noSlash_below {ps : List Str} (hp : ∀ p ∈ ps, Proper p) (t : Bool) :
    slash ∉ belowVol bslash ps t := by
  intro hm
  rcases List.mem_append.mp hm with hm | hm
  · obtain ⟨p, hmem, hx⟩ := List.mem_flatMap.mp hm
    rcases List.mem_cons.mp hx with hx | hx
    · exact absurd hx (by decide)
    · exact absurd ((hp p hmem).noSlash slash hx) (by decide)
  · cases t with
    | false => cases hm
    | true => exact absurd (List.mem_singleton.mp hm) (by decide)

/-- The body is the names the rest comes to, for a share and for a rest that keeps its root. -/
theorem body_kept (hread : ReadAsIs h) (hkeeps : KeepsRoot h) :
    ∃ t, h.body = h.text (resolved (components h.rest)) t := by
  obtain ⟨pre, rest, room, share⟩ := h
  cases share with
  | none => exact normntpath_kept (hread rfl) (hkeeps rfl)
  | some root =>
    refine ⟨rest.getLast?.any isSlash && !(net (moves rest)).2.isEmpty, ?_⟩
    show (normuncrest rest).1 = _
    rw [normuncrest_net, ← resolved_net]
    rfl

theorem body_noSlash (h : Head) : slash ∉ h.body := by
  obtain ⟨pre, rest, room, share⟩ := h
  cases share with
  | none => exact normLoop_noSlash rest [] List.not_mem_nil
  | some root =>
    show slash ∉ (normuncrest rest).1
    rw [normuncrest_net, ← resolved_net]
    exact noSlash_below (resolved_proper rest) _

theorem normalised_iff (hh : env.head q = .ok h) (hread : ReadAsIs h) :
    Normalised h (h.pre ++ h.body) ↔ KeepsRoot h := by
  constructor
  · rintro ⟨-, t, ht⟩ hshare
    by_contra hnot
    rw [not_or, Bool.not_eq_true] at hnot
    have hbody : h.body = normntpath h.rest := by
      rw [Head.body, hshare]
    have htext : h.text (resolved (components h.rest)) t =
        (belowVol bslash (resolved (components h.rest)) t).tail := by
      rw [Head.text, hshare]
    rw [hbody, htext] at ht
    exact rough_ne (normntpath_rough (hread hshare) hnot.1 hnot.2) (resolved_proper h.rest) t
      (List.append_cancel_left ht)
  · intro hkeeps
    obtain ⟨t, ht⟩ := body_kept hread hkeeps
    refine ⟨?_, t, by rw [ht]⟩
    rw [List.mem_append, not_or]
    exact ⟨head_noSlash hh, body_noSlash h⟩

end Long

/-- A long name under `pre`, in `C:`. -/
def longHead (pre : Str) : Head := ⟨drivePre 0x43, pre ++ List.replicate 300 0x61, 1017, none⟩

end ApeShim.Nt
