import ApeShim.Nt.ShareClimb

/-!
`__mkntpathath_impl` of `shim/mkntpathat.c`: a path relative to an open directory.
The directory's path, prefix and all, is joined with the converted path and
normalized as one text.
-/

namespace ApeShim.Nt
open Walk

inductive DirHand
  /-- `AT_FDCWD` -/
  | fdcwd
  /-- a handle, and what `GetFinalPathNameByHandle` says of it -/
  | handle (final : Option Str)

/-- `IsAbsolutePathWin32`. -/
def isAbsolutePathWin32 (file : Str) : Bool :=
  file.getD 0 0 = bslash || (alphaAt file 0 && file.getD 1 0 = colon)

/-- `__mkntpathath_impl`: the text of the path and the length returned, which is the one
before the prefix goes. -/
def Env.mkntpathathImpl (env : Env) (roots : Roots) (dirhand : DirHand) (path : Str) :
    Roots × Except NtErr (Str × Nat) :=
  match env.mkntpath2 roots path with
  | (roots, .error e) => (roots, .error e)
  | (roots, .ok file) =>
      (roots,
        if file = [] then .error .enoent
        else
          match dirhand with
          | .fdcwd => .ok (normntpath file, (normntpath file).length)
          | .handle final =>
              if isAbsolutePathWin32 file then .ok (normntpath file, (normntpath file).length)
              else
                match final with
                | none => .error .winerr
                | some dir =>
                    if dir.length + 1 + file.length + 1 > env.pathMax then .error .enametoolong
                    else
                      let file := normntpath (dir ++ bslash :: file)
                      .ok (downgrade 260 file, file.length))

/-! ## A relative path -/

section Relative

variable {env : Env} {roots : Roots} {path : Str}

theorem head_of_relative (h : isRelative path = true) : ∃ c ∈ path.head?, isSlash c = false := by
  cases path with
  | nil => simp [isRelative] at h
  | cons c path =>
    refine ⟨c, rfl, ?_⟩
    simp only [isRelative, Bool.and_eq_true, Bool.not_eq_true'] at h
    exact h.1.2

theorem dots_cases {k : Nat} {D : List Str} (hD : Norm.Dots k D) :
    ∀ d ∈ D, d = [dot] ∨ d = dotdot := by
  intro d hd
  rcases hD with ⟨-, rfl | rfl⟩ | ⟨-, rfl⟩
  · cases hd
  · exact Or.inl (List.mem_singleton.mp hd)
  · exact Or.inr (List.eq_of_mem_replicate hd)

/-- **A relative path** is written with dots for its ups and its names behind them. The
first component is dots or the path's own first. -/
theorem normntpath_relative (hplain : Plain path) (hrel : isRelative path = true) :
    ∃ D q ps, Norm.Dots (net (moves path)).1 D ∧ (q :: ps).reverse = (net (moves path)).2 ++ D ∧
      (q = [dot] ∨ q = dotdot ∨ (components path).head? = some q) ∧
      normntpath path = q ++ belowVol bslash ps (Norm.endsAt .start path) := by
  have hhead := head_of_relative hrel
  obtain ⟨D, hD, hrun, hbottom, -⟩ := Norm.run_start hhead
  have hne : (net (moves path)).2 ++ D ≠ [] := by
    intro he
    rw [he] at hrun
    exact Norm.foldl_ne_start (components_ne_nil path) hrun
  obtain ⟨q, ps, hq⟩ := List.exists_cons_of_ne_nil (List.reverse_ne_nil_iff.mpr hne)
  have hrev : (q :: ps).reverse = (net (moves path)).2 ++ D := by rw [← hq, List.reverse_reverse]
  have hlast : ((net (moves path)).2 ++ D).getLast? = some q := by
    rw [← hrev, List.getLast?_reverse]
    rfl
  refine ⟨D, q, ps, hD, hrev, ?_, ?_⟩
  · cases hc : D with
    | nil =>
      rw [hc, List.append_nil, hbottom hc] at hlast
      exact Or.inr (Or.inr hlast)
    | cons d ds =>
      rw [getLast_append_ne (by simp [hc])] at hlast
      rcases dots_cases hD q (List.mem_of_getLast? hlast) with h | h
      · exact Or.inl h
      · exact Or.inr (Or.inl h)
  · rw [← hrev] at hrun
    rw [normntpath_text hplain.legible hhead hrun, belowVol, List.append_assoc]

theorem eq_of_head_components {w q : Str} (h : (components w).head? = some q) :
    (∀ x ∈ q, isSlash x = false) ∧ ∃ rest, Below rest ∧ w = q ++ rest := by
  induction w using pieces_induction isSlash with
  | last w hw =>
    rw [components_last hw] at h
    obtain rfl : w = q := by simpa using h
    exact ⟨hw, [], by simp [Below], by simp⟩
  | step p s rest hp hs ih =>
    rw [components_cons hp hs] at h
    obtain rfl : p = q := by simpa using h
    exact ⟨hp, s :: rest, below_cons hs rest, rfl⟩

/-- A component and what is below it look absolute only by the component. -/
theorem not_absolute_of {q rest : Str} (hq : q ≠ []) (hno : ∀ x ∈ q, isSlash x = false)
    (hr : Below rest) (h : ¬ (alphaAt q 0 = true ∧ q.getD 1 0 = colon)) :
    isAbsolutePathWin32 (q ++ rest) = false := by
  cases q with
  | nil => exact absurd rfl hq
  | cons c q =>
    have hc : c ≠ bslash := ne_bslash (hno c (by simp))
    have hcolon : ¬ (alphaAt (c :: q ++ rest) 0 = true ∧ (c :: q ++ rest).getD 1 0 = colon) := by
      rintro ⟨ha, hcol⟩
      cases q with
      | cons d q => exact h ⟨ha, hcol⟩
      | nil =>
        cases rest with
        | nil => exact absurd (show (0 : UInt16) = colon from hcol) (by decide)
        | cons d rest =>
          have hd : isSlash d = true := hr d rfl
          rw [show d = colon from hcol] at hd
          exact absurd hd (by decide)
    have h0 : (c :: q ++ rest).getD 0 0 = c := rfl
    simp only [isAbsolutePathWin32, h0, hc, decide_false, Bool.false_or, Bool.and_eq_false_iff,
      decide_eq_false_iff_not]
    by_cases ha : alphaAt (c :: q ++ rest) 0 = true
    · exact Or.inr fun hcol => hcolon ⟨ha, hcol⟩
    · exact Or.inl (by simpa using ha)

/-- The result of a relative path is relative. -/
theorem not_absolute_relative (hplain : Plain path) (hrel : isRelative path = true) :
    normntpath path ≠ [] ∧ isAbsolutePathWin32 (normntpath path) = false := by
  obtain ⟨D, q, ps, hD, hrev, hfirst, htext⟩ := normntpath_relative hplain hrel
  have hdots : ∀ d : Str, d = [dot] ∨ d = dotdot → d ≠ [] ∧ (∀ x ∈ d, isSlash x = false) ∧
      ¬ (alphaAt d 0 = true ∧ d.getD 1 0 = colon) := by
    rintro d (rfl | rfl) <;> decide
  have hq : q ≠ [] ∧ (∀ x ∈ q, isSlash x = false) ∧ ¬ (alphaAt q 0 = true ∧ q.getD 1 0 = colon) := by
    rcases hfirst with h | h | h
    · exact hdots q (Or.inl h)
    · exact hdots q (Or.inr h)
    · obtain ⟨hno, rest, hr, rfl⟩ := eq_of_head_components h
      have hne : q ≠ [] := by
        rintro rfl
        obtain ⟨c, hc, hslash⟩ := head_of_relative hrel
        rw [List.nil_append] at hc
        rw [hr c hc] at hslash
        cases hslash
      refine ⟨hne, hno, ?_⟩
      rintro ⟨ha, hcol⟩
      have hrel' : isRelative (q ++ rest) = false := by
        match q, hne with
        | [c], _ => exact absurd (show (0 : UInt16) = colon from hcol) (by decide)
        | c :: d :: q, _ =>
          have ha : isAlpha c.toNat = true := ha
          have hcol : d = colon := hcol
          simp [isRelative, alphaAt, ha, hcol]
      rw [hrel'] at hrel
      cases hrel
  rw [htext]
  exact ⟨by simp [hq.1], not_absolute_of hq.1 hq.2.1 (below_belowVol isSlash_bslash) hq.2.2⟩

/-- **A relative path** is normalized where it is, within the room of a short path. -/
theorem mkntpath2From_relative (fuel : Nat) (hplain : Plain path) (hrel : isRelative path = true)
    (hm : noMarks none path = true) (hlocal : env.uncRel roots path = none) :
    env.mkntpath2From (fuel + 1) roots path =
      (roots, if path.length ≥ 259 then .error .enametoolong else .ok (normntpath path)) := by
  obtain ⟨-, habs⟩ := not_absolute_relative hplain hrel
  obtain ⟨c, hc, hslash⟩ := head_of_relative hrel
  have h0 : slashAt path 0 = false := by
    cases path with
    | nil => cases hc
    | cons d path =>
      obtain rfl : d = c := by simpa using hc
      exact hslash
  have hproc : env.procfs path = none := env.procfs_none path (Or.inl h0)
  have hcol : isCollapsedUnc roots path = false := by simp [isCollapsedUnc, h0]
  have hdivert : env.divert path = path := by simp [Env.divert, h0]
  have hdrive : driveMark path = false := by
    simp only [isRelative, Bool.and_eq_true, Bool.not_eq_true'] at hrel
    rw [driveMark, hrel.2, Bool.false_and]
  have hhead : env.head path = .ok ⟨[], path, min 260 env.pathMax, none⟩ := by
    simp [Env.head, h0, hdrive]
  have htmp : isTmp path = false := by simp [isTmp, h0]
  have hroom : min 260 env.pathMax - 1 = 259 := by
    have := env.pathMax_ge
    omega
  have hdown : downgrade 244 (normntpath path) = normntpath path := by
    rw [downgrade, if_neg]
    rintro ⟨-, ht⟩
    cases hn : normntpath path with
    | nil => simp [hn, longMark] at ht
    | cons d w =>
      rw [hn] at ht habs
      have : d = bslash := (List.cons.inj ht).1
      rw [this] at habs
      simp [isAbsolutePathWin32] at habs
  simp only [Env.mkntpath2From, hproc, Option.getD_none, reroot_noMarks hm, hrel, if_true, hlocal, h0,
    Bool.false_and, Bool.false_eq_true, if_false, hcol, hdivert]
  rw [env.finish_flat hhead (by simp [htmp]), hroom, List.nil_append, hdown]

/-- Normalizing does not change where a relative path leads. -/
theorem net_normntpath (hplain : Plain path) (hrel : isRelative path = true) :
    net (moves (normntpath path)) = net (moves path) := by
  obtain ⟨D, q, ps, hD, hrev, -, htext⟩ := normntpath_relative hplain hrel
  have hproper : ∀ p ∈ (net (moves path)).2, Proper p := fun p hp => (mem_net hp).2
  have hno : ∀ p ∈ q :: ps, ∀ x ∈ p, isSlash x = false := by
    intro p hp
    have hp : p ∈ (net (moves path)).2 ++ D := by
      rw [← hrev]
      exact List.mem_reverse.mpr hp
    rcases List.mem_append.mp hp with hp | hp
    · exact (hproper p hp).noSlash
    · rcases dots_cases hD p hp with rfl | rfl <;> decide
  have hcomp : components (normntpath path) =
      q :: ps ++ (if Norm.endsAt .start path then [[]] else []) := by
    rw [htext, components_below isSlash_bslash (hno q (by simp)) fun p hp => hno p (by simp [hp])]
  have hqs : q :: ps = D.reverse ++ (net (moves path)).2.reverse := by
    rw [← List.reverse_append, ← hrev, List.reverse_reverse]
  have hnames : (net (moves path)).2.reverse.map move =
      (net (moves path)).2.reverse.map Move.name :=
    List.map_congr_left fun p hp => (hproper p (List.mem_reverse.mp hp)).move
  have hups : netFrom 0 [] (D.reverse.map move) = ((net (moves path)).1, []) := by
    rcases hD with ⟨hk, rfl | rfl⟩ | ⟨-, hD⟩
    · rw [hk]
      rfl
    · rw [hk]
      rfl
    · have : D.reverse.map move = List.replicate (net (moves path)).1 .up := by
        rw [hD, List.reverse_replicate, List.map_replicate]
        rfl
      rw [this, netFrom_ups, Nat.zero_add]
  have hstay : ∀ (k : Nat) (st : List Str) (b : Bool),
      netFrom k st ((if b then [[]] else []).map move) = (k, st) := by
    intro k st b
    cases b <;> rfl
  rw [moves, hcomp, hqs, List.map_append, List.map_append, hnames, net, netFrom_append,
    netFrom_append, hups, netFrom_names, hstay, List.append_nil, List.reverse_reverse]

theorem plain_normntpath (hplain : Plain path) (hrel : isRelative path = true) :
    Plain (normntpath path) := by
  obtain ⟨D, q, ps, hD, hrev, -, htext⟩ := normntpath_relative hplain hrel
  have hpart : ∀ p ∈ q :: ps, Plain p := by
    intro p hp
    have hp : p ∈ (net (moves path)).2 ++ D := by
      rw [← hrev]
      exact List.mem_reverse.mpr hp
    rcases List.mem_append.mp hp with hp | hp
    · exact fun x hx => hplain x (mem_of_mem_components (mem_net hp).1 hx)
    · rcases dots_cases hD p hp with rfl | rfl <;> decide
  rw [htext]
  exact plain_below isSlash_bslash hpart

end Relative

/-! ## The joined path -/

/-- The components a volume is written with behind `\\`. -/
def volParts : Vol → List Str
  | .drive c => [[quest], [c, colon]]
  | .share server name => [[quest], [0x55, 0x4E, 0x43], server, name]

/-- A name in the path of an open directory. -/
structure DirName (p : Str) : Prop where
  proper : Proper p
  noColon : colon ∉ p
  noQuest : quest ∉ p

/-- A volume an open directory can be on. -/
def DirVol (drives : BitVec 32) : Vol → Prop
  | .drive c => isAlpha c.toNat = true ∧ driveExists drives c.toNat = true
  | .share server name => DirName server ∧ IsServer server ∧ DirName name

/-- A call with the path `path` relative to the directory `ds` of the volume `v`. -/
structure AtCall (env : Env) (roots : Roots) (v : Vol) (ds : List Str) (trailing : Bool)
    (path : Str) : Prop where
  vol : DirVol env.drives v
  names : ∀ d ∈ ds, DirName d
  rooted : Rooted v ds trailing
  relative : isRelative path = true
  unmarked : noMarks none path = true
  unhooked : env.uncRel roots path = none
  plainDir : Plain (ntPath .long v ds trailing)
  plain : Plain path

/-- What the text of the joined path is made from. -/
def joinedText (v : Vol) (ds : List Str) (trailing : Bool) (path : Str) : Str :=
  normntpath (ntPath .long v ds trailing ++ bslash :: normntpath path)

section Joined

variable {env : Env} {roots : Roots} {v : Vol} {ds : List Str} {trailing : Bool} {path : Str}

theorem ntPath_long (v : Vol) (ds : List Str) (trailing : Bool) :
    ntPath .long v ds trailing = bslash :: belowVol bslash (volParts v ++ ds) trailing := by
  cases v <;> simp [ntPath, volParts, belowVol, spell, longMark, uncMark]

theorem normLoop_double (w : Str) :
    normLoop (bslash :: bslash :: w) [] = normLoop w [bslash, bslash] := by
  have hb : bslash ≠ slash := by decide
  have hd : bslash ≠ dot := by decide
  rw [normLoop_sep isSlash_bslash (by simp), normLoop.eq_def]
  simp [hb, hd]

variable (h : AtCall env roots v ds trailing path)

include h

/-- **The answer** is the joined text, downgraded. -/
theorem mkntpathathImpl_eq {out : Str} {n : Nat}
    (hout : (env.mkntpathathImpl roots (.handle (some (ntPath .long v ds trailing))) path).2 =
      .ok (out, n)) : out = downgrade 260 (joinedText v ds trailing path) := by
  obtain ⟨hne, habs⟩ := not_absolute_relative h.plain h.relative
  rw [Env.mkntpathathImpl, Env.mkntpath2,
    mkntpath2From_relative 2 h.plain h.relative h.unmarked h.unhooked] at hout
  by_cases hlen : path.length ≥ 259
  · rw [if_pos hlen] at hout
    cases hout
  · rw [if_neg hlen] at hout
    simp only [if_neg hne, habs, Bool.false_eq_true, if_false] at hout
    split at hout
    · cases hout
    · exact (congrArg Prod.fst (Except.ok.inj hout)).symm

theorem proper_volParts : ∀ p ∈ volParts v ++ ds, Proper p := by
  intro p hp
  rcases List.mem_append.mp hp with hp | hp
  · cases v with
    | drive c =>
      have hc := Env.isSlash_of_alpha h.vol.1
      simp only [volParts, List.mem_cons, List.not_mem_nil, or_false] at hp
      rcases hp with rfl | rfl
      · exact ⟨by decide, by decide, by decide, by decide⟩
      · refine ⟨by simp, ?_, by simp, ?_⟩
        · simpa using ⟨hc, by decide⟩
        · intro he
          have := (List.cons.inj (List.cons.inj he).2).1
          exact absurd this (by decide)
    | share server name =>
      simp only [volParts, List.mem_cons, List.not_mem_nil, or_false] at hp
      rcases hp with rfl | rfl | rfl | rfl
      · exact ⟨by decide, by decide, by decide, by decide⟩
      · exact ⟨by decide, by decide, by decide, by decide⟩
      · exact h.vol.1.proper
      · exact h.vol.2.2.proper
  · exact (h.names p hp).proper

/-- **The state** the joined path comes to. -/
theorem run_joined :
    ∃ w, ntPath .long v ds trailing ++ bslash :: normntpath path = bslash :: bslash :: w ∧ Plain w ∧
      (components w).getLastD [] = (components (normntpath path)).getLastD [] ∧
      Norm.run ⟨true, []⟩ w = Norm.above ⟨true, []⟩ (volParts v ++ ds).reverse
        (net (moves path)).1 (net (moves path)).2 := by
  obtain ⟨P, hP⟩ : ∃ P, volParts v ++ ds = [quest] :: P := by
    cases v <;> exact ⟨_, rfl⟩
  have hproper := proper_volParts h
  have hplain := h.plainDir
  rw [ntPath_long] at hplain ⊢
  rw [hP] at hplain hproper ⊢
  have hcons : belowVol bslash ([quest] :: P) trailing =
      bslash :: ([quest] ++ belowVol bslash P trailing) := by simp [belowVol, spell]
  have hcomp : components ([quest] ++ belowVol bslash P trailing ++ bslash :: normntpath path) =
      ([quest] :: P ++ (if trailing then [[]] else [])) ++ components (normntpath path) := by
    rw [components_append _ isSlash_bslash, components_below isSlash_bslash
      (hproper [quest] (by simp)).noSlash fun p hp => (hproper p (by simp [hp])).noSlash]
  rw [hcons] at hplain ⊢
  refine ⟨[quest] ++ belowVol bslash P trailing ++ bslash :: normntpath path, by simp, ?_, ?_, ?_⟩
  · intro x hx
    rcases List.mem_append.mp hx with hx | hx
    · exact hplain x (by simp only [List.mem_cons]; exact Or.inr (Or.inr hx))
    · rcases List.mem_cons.mp hx with rfl | hx
      · exact fun _ => isSlash_bslash
      · exact plain_normntpath h.plain h.relative x hx
  · rw [hcomp, List.getLastD_eq_getLast?, List.getLastD_eq_getLast?,
      getLast_append_ne (components_ne_nil _)]
  · have hns : (⟨true, []⟩ : Norm) ≠ .start := by simp [Norm.start]
    have hns' : (⟨true, ([quest] :: P).reverse⟩ : Norm) ≠ .start := by simp [Norm.start]
    have hnames : ([quest] :: P).foldl Norm.next ⟨true, []⟩ = ⟨true, ([quest] :: P).reverse⟩ := by
      rw [Norm.foldl_next_names hproper hns, List.append_nil]
    have hstay : (if trailing then [[]] else []).foldl Norm.next ⟨true, ([quest] :: P).reverse⟩ =
        ⟨true, ([quest] :: P).reverse⟩ := by
      cases trailing with
      | false => rfl
      | true => exact Norm.next_stay hns' (p := []) rfl
    have habove := Norm.run_above (Or.inl rfl : Norm.IsRoot ⟨true, []⟩) (S := ([quest] :: P).reverse)
      (fun t ht => Norm.solid_of_proper (hproper t (List.mem_reverse.mp ht))) (normntpath path)
    rw [List.append_nil, net_normntpath h.plain h.relative] at habove
    rw [Norm.run, hcomp, List.foldl_append, List.foldl_append, hnames, hstay, ← habove]
    rfl

omit h in
theorem net_of_named {ps : List Str} {l : Str} (hl : named l = true) :
    (net ((ps ++ [l]).map move)).2 ≠ [] := by
  have hm : move l = .name l := by
    cases hm : move l with
    | stay =>
      rw [(named_eq_false l).mpr (Or.inl hm)] at hl
      cases hl
    | up =>
      rw [(named_eq_false l).mpr (Or.inr hm)] at hl
      cases hl
    | name q => rw [(move_name hm).1]
  rw [List.map_append, net, netFrom_append, List.map_singleton, hm]
  simp [netFrom]

/-- The joined text ends with a separator unless the path ends with a name. -/
def endsOpen (path : Str) : Bool := !named ((components (normntpath path)).getLastD [])

/-- **The joined text**, as long as the path goes up no further than `\\`. -/
theorem joinedText_eq (hk : (net (moves path)).1 ≤ (volParts v ++ ds).length) :
    joinedText v ds trailing path = bslash :: belowVol bslash
      ((volParts v ++ ds).take ((volParts v ++ ds).length - (net (moves path)).1) ++
        (net (moves path)).2.reverse) (endsOpen path) := by
  obtain ⟨w, hw, hplain, hlast, hrun⟩ := run_joined h
  have hproper := proper_volParts h
  obtain ⟨L, hL⟩ : ∃ L, L = (volParts v ++ ds).take
    ((volParts v ++ ds).length - (net (moves path)).1) ++ (net (moves path)).2.reverse := ⟨_, rfl⟩
  rw [← hL]
  have hstate : Norm.run ⟨true, []⟩ w = ⟨true, L.reverse⟩ := by
    have hrev : L.reverse =
        (net (moves path)).2 ++ (volParts v ++ ds).reverse.drop (net (moves path)).1 := by
      rw [hL, List.reverse_append, List.reverse_reverse, List.drop_reverse]
    rw [hrun, Norm.above, if_pos (by rw [List.length_reverse]; exact hk), List.append_nil, hrev]
  have hsolid : ∀ t ∈ L, Norm.Solid t := by
    intro t ht
    rw [hL] at ht
    rcases List.mem_append.mp ht with ht | ht
    · exact Norm.solid_of_proper (hproper t (List.mem_of_mem_take ht))
    · exact Norm.solid_of_proper (mem_net (List.mem_reverse.mp ht)).2
  have hclean : Norm.Clean ⟨true, []⟩ := by
    intro c hc
    cases hc
  have hns : (⟨true, []⟩ : Norm) ≠ .start := by simp [Norm.start]
  have hends : Norm.endsAt ⟨true, []⟩ w = endsOpen path := by
    have hpre : ∀ ps : List Str, ps.foldl Norm.next ⟨true, []⟩ ≠ .start := by
      intro ps
      cases ps with
      | nil => exact hns
      | cons p ps => exact Norm.foldl_ne_start (by simp)
    rw [endsOpen, ← hlast]
    apply Norm.endsAt_eq (hpre _)
    rw [hstate]
    exact fun t ht => hsolid t (List.mem_reverse.mp (List.mem_of_mem_head? ht))
  have htext : normLoop w [bslash, bslash] = bslash :: belowVol bslash L (Norm.endsAt ⟨true, []⟩ w) := by
    cases L with
    | cons p ps =>
      have htext : normLoop w [bslash, bslash] = _ :=
        Norm.normLoop_text hplain.legible hclean (fun he => absurd he hns) hstate
      rw [htext]
      simp [belowVol, spell]
    | nil =>
      obtain ⟨-, r, hr, hor⟩ := Norm.normLoop_run w hplain.legible ⟨true, []⟩ hclean fun he => absurd he hns
      have hr : normLoop w [bslash, bslash] = r.reverse := hr
      rw [hstate] at hor
      rw [hr]
      rcases hor with ⟨he, rfl⟩ | ⟨he, hr⟩
      · rw [he]
        rfl
      · obtain rfl : r = [bslash] := (List.cons.inj hr).2
        rw [he]
        rfl
  rw [joinedText, normntpath, hw, normLoop_double, htext, hends]

/-- Further up, it starts with dots. -/
theorem joinedText_dots (hk : (volParts v ++ ds).length < (net (moves path)).1) :
    ∃ t, joinedText v ds trailing path = dot :: t := by
  obtain ⟨w, hw, hplain, -, hrun⟩ := run_joined h
  have hclean : Norm.Clean ⟨true, []⟩ := by
    intro c hc
    cases hc
  have hns : (⟨true, []⟩ : Norm) ≠ .start := by simp [Norm.start]
  obtain ⟨d, D, hd⟩ :=
    Norm.dots_reverse ((net (moves path)).1 - (volParts v ++ ds).reverse.length - 1)
  have hstate : Norm.run ⟨true, []⟩ w =
      ⟨false, ((dot :: d) :: (D ++ (net (moves path)).2.reverse)).reverse⟩ := by
    rw [hrun, Norm.above, if_neg (by rw [List.length_reverse]; omega), ← List.cons_append, ← hd]
    simp
  have htext := Norm.normLoop_text hplain.legible hclean (fun he => absurd he hns) hstate
  have hout : Norm.out ⟨true, []⟩ = [bslash, bslash] := rfl
  rw [hout] at htext
  exact ⟨_, by rw [joinedText, normntpath, hw, normLoop_double, htext]; rfl⟩

/-- The files left of the directory and the path. -/
theorem joinedText_low (hk : (net (moves path)).1 ≤ ds.length) :
    joinedText v ds trailing path =
      ntPath .long v (clamp ds.reverse (moves path)).reverse (endsOpen path) := by
  have hle : (net (moves path)).1 ≤ (volParts v ++ ds).length := by
    rw [List.length_append]
    omega
  have htake : (volParts v ++ ds).take ((volParts v ++ ds).length - (net (moves path)).1) =
      volParts v ++ ds.take (ds.length - (net (moves path)).1) := by
    have : (volParts v ++ ds).length - (net (moves path)).1 =
        (volParts v).length + (ds.length - (net (moves path)).1) := by
      rw [List.length_append]
      omega
    rw [this, List.take_length_add_append]
  have hclamp : (clamp ds.reverse (moves path)).reverse =
      ds.take (ds.length - (net (moves path)).1) ++ (net (moves path)).2.reverse := by
    rw [clamp_eq_net, List.reverse_append, List.drop_reverse, List.reverse_reverse]
  rw [joinedText_eq h hle, htake, List.append_assoc, ← hclamp, ntPath_long]

/-- With no name left, the path ends with dots or a separator. -/
theorem endsOpen_of_nil (hR : (net (moves path)).2 = []) : endsOpen path = true := by
  obtain ⟨front, l, hfront⟩ := (List.eq_nil_or_concat' (components (normntpath path))).resolve_left
    (components_ne_nil _)
  have hget : (front ++ [l]).getLastD [] = l := by
    rw [List.getLastD_eq_getLast?, List.getLast?_concat]
    rfl
  have hnet := net_normntpath h.plain h.relative
  rw [moves, hfront] at hnet
  rw [endsOpen, hfront, hget, Bool.not_eq_true', ← Bool.not_eq_true]
  intro hl
  apply @net_of_named front l hl
  rw [hnet, hR]

end Joined

end ApeShim.Nt
