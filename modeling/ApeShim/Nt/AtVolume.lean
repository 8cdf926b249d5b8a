import ApeShim.Nt.VolumeText

/-!
Where a path relative to an open directory ends up: on the directory's own drive or
share, and at the file `__mkntpath2` finds under the directory's unix spelling joined
with the path. The joined text has the volume as components that `..` takes back.
-/

namespace ApeShim.Nt
open Walk

/-! ## The unix spelling -/

/-- The unix spelling of the directory, joined with the path. -/
def unixJoin (v : Vol) (ds : List Str) (path : Str) : Str := unixPath v ds false ++ slash :: path

/-- What follows the volume in it. -/
def joinRest (ds : List Str) (path : Str) : Str := spell slash ds ++ slash :: path

/-- The length up to which `__mkntpath2` takes it. -/
def RoomFor (env : Env) (v : Vol) (ds : List Str) (path : Str) : Prop :=
  (unixJoin v ds path).length + (match v with | .drive _ => 5 | .share _ _ => 7) <
    min 32767 env.pathMax

instance (env : Env) (v : Vol) (ds : List Str) (path : Str) : Decidable (RoomFor env v ds path) :=
  inferInstanceAs (Decidable (_ < _))

section Unix

variable {env : Env} {roots : Roots} {v : Vol} {ds : List Str} {trailing : Bool} {path : Str}

theorem unixJoin_drive (c : UInt16) : unixJoin (.drive c) ds path = slash :: c :: joinRest ds path := by
  simp [unixJoin, unixPath, joinRest, belowVol]

theorem unixJoin_share (server name : Str) :
    unixJoin (.share server name) ds path = sharePath slash server name (joinRest ds path) := by
  simp [unixJoin, unixPath, joinRest, belowVol, sharePath, shareRoot]

theorem joinRest_eq (ds : List Str) (path : Str) :
    joinRest ds path = slash :: (joinRest ds path).tail := by
  cases ds <;> rfl

theorem below_joinRest : Below (joinRest ds path) := by
  rw [joinRest_eq]
  exact below_cons isSlash_slash _

theorem noMarks_relative (hrel : isRelative path = true) (hm : noMarks none path = true) :
    noMarks (some slash) path = true := by
  obtain ⟨c, hc, hslash⟩ := head_of_relative hrel
  cases path with
  | nil => cases hc
  | cons d path =>
    obtain rfl : d = c := by simpa using hc
    have hpair : pairMark (d :: path) = false := by simp [pairMark, ne_bslash hslash]
    rw [noMarks, Bool.and_eq_true] at hm ⊢
    refine ⟨?_, hm.2⟩
    have hdrive : driveMark (d :: path) = false := by simpa [markAt] using hm.1
    simp [markAt, hdrive, hpair]

variable (h : AtCall env roots v ds trailing path)

include h

theorem components_joinRest : components (joinRest ds path) = [] :: (ds ++ components path) := by
  have hno : ∀ d ∈ ds, ∀ x ∈ d, isSlash x = false := fun d hd => (h.names d hd).proper.noSlash
  have hdir : components (belowVol slash ds false) = [] :: ds := by
    have : components ([] ++ belowVol slash ds false) = [] :: ds ++ (if false then [[]] else []) :=
      components_below isSlash_slash (by simp) hno
    simpa using this
  have happ : joinRest ds path = belowVol slash ds false ++ slash :: path := by
    simp [joinRest, belowVol]
  rw [happ, components_append _ isSlash_slash, hdir]
  rfl

/-- **The walk** of the joined spelling is the path's, from the directory. -/
theorem net_joinRest :
    net (moves (joinRest ds path)) =
      atop ds.reverse (net (moves path)).1 (net (moves path)).2 := by
  have hnames : ds.map move = ds.map Move.name :=
    List.map_congr_left fun d hd => (h.names d hd).proper.move
  rw [← net_atop, moves, components_joinRest h, List.map_cons, List.map_append, hnames]
  rfl

theorem noMarks_unixJoin : noMarks none (unixJoin v ds path) = true := by
  have hback : ∀ d, DirName d → bslash ∉ d := by
    intro d hd hb
    exact absurd (hd.proper.noSlash bslash hb) (by decide)
  have hmem : ∀ x, x ≠ slash → isAlpha x.toNat = false → (∀ d, DirName d → x ∉ d) →
      x ∉ unixPath v ds false ++ [slash] := by
    intro x hx hxa hd
    have hbelow := @not_mem_below ds false x slash hx.symm fun d hd' => hd d (h.names d hd')
    have hvol := h.vol
    cases v with
    | drive c =>
      have : x ≠ c := by
        rintro rfl
        rw [hvol.1] at hxa
        cases hxa
      simp [unixPath, hx, this, hbelow]
    | share server name =>
      simp [unixPath, hx, hbelow, hd server hvol.1, hd name hvol.2.2]
  have happ : unixJoin v ds path = (unixPath v ds false ++ [slash]) ++ path := by simp [unixJoin]
  rw [happ]
  refine noMarks_append (hmem colon (by decide) (by decide) fun d hd => hd.noColon)
    (hmem bslash (by decide) (by decide) hback) ?_ ?_
  · intro c hc
    rw [List.getLast?_concat] at hc
    obtain rfl : slash = c := by simpa using hc
    decide
  · rw [List.getLast?_concat]
    exact noMarks_relative h.relative h.unmarked

theorem plain_joinRest : Plain (joinRest ds path) := by
  intro x hx
  rcases List.mem_append.mp hx with hx | hx
  · obtain ⟨d, hd, hx⟩ := List.mem_flatMap.mp hx
    rcases List.mem_cons.mp hx with rfl | hx
    · exact fun _ => isSlash_slash
    · apply h.plainDir x
      rw [ntPath.eq_def]
      apply List.mem_append_right
      exact List.mem_append_left _ (List.mem_flatMap.mpr ⟨d, hd, List.mem_cons_of_mem _ hx⟩)
  · rcases List.mem_cons.mp hx with rfl | hx
    · exact fun _ => isSlash_slash
    · exact h.plain x hx

end Unix

/-! ## The joined text -/

section JoinedText

variable {env : Env} {roots : Roots} {v : Vol} {ds : List Str} {trailing : Bool} {path : Str}
  (h : AtCall env roots v ds trailing path)

include h

theorem proper_files : ∀ p ∈ (clamp ds.reverse (moves path)).reverse, Proper p := by
  intro p hp
  rw [List.mem_reverse, clamp_eq_net] at hp
  rcases List.mem_append.mp hp with hp | hp
  · exact (mem_net hp).2
  · exact (h.names p (List.mem_reverse.mp (List.mem_of_mem_drop hp))).proper

omit h in
theorem DirName.isName {p : Str} (hp : DirName p) : isName p = true := by
  apply hp.proper.isName
  rintro rfl
  exact hp.noQuest (by simp)

/-- **While the path stays below the volume**, the joined text names the file there. -/
theorem ntFile_low (hk : (net (moves path)).1 ≤ ds.length) :
    ntFile (downgrade 260 (joinedText v ds trailing path)) =
      some (v, (clamp ds.reverse (moves path)).reverse) := by
  have hproper := proper_files h
  have hno : ∀ p ∈ (clamp ds.reverse (moves path)).reverse, ∀ x ∈ p, isSlash x = false :=
    fun p hp => (hproper p hp).noSlash
  have hopen : (clamp ds.reverse (moves path)).reverse ≠ [] ∨ endsOpen path = true := by
    by_cases hR : (net (moves path)).2 = []
    · exact Or.inr (endsOpen_of_nil h hR)
    · left
      rw [clamp_eq_net, Ne, List.reverse_eq_nil_iff, List.append_eq_nil_iff]
      exact fun hc => hR hc.1
  rw [joinedText_low h hk]
  generalize (clamp ds.reverse (moves path)).reverse = files at hproper hno hopen ⊢
  have hbelow : components ([] ++ belowVol bslash files (endsOpen path)) =
      [] :: files ++ (if endsOpen path then [[]] else []) :=
    components_below isSlash_bslash (by simp) hno
  cases v with
  | drive c =>
    obtain ⟨y, hy⟩ := @belowVol_eq files (endsOpen path) bslash hopen
    have htext : ntPath .long (.drive c) files (endsOpen path) = drivePre c ++ y := by
      rw [ntPath_drive, hy]
      rfl
    rw [List.nil_append, hy, components_sep isSlash_bslash] at hbelow
    rw [htext]
    apply ntFile_downgrade_drive 260 h.vol.1
    rw [(List.cons.inj hbelow).2]
    exact Reads.of_below hproper
  | share server name =>
    have htext : ntPath .long (.share server name) files (endsOpen path) =
        longMark ++ uncMark ++ (server ++ belowVol bslash (name :: files) (endsOpen path)) := by
      rw [ntPath_share, if_pos rfl]
      simp [belowVol, spell]
    have hall : ∀ p ∈ name :: files, Proper p := by
      simpa using ⟨h.vol.2.2.proper, hproper⟩
    rw [htext, ntFile_names 260 h.vol.2.1 hall, if_pos h.vol.2.2.isName]

/-- Only the newest name can look like a drive, and only at the end of the path. -/
theorem not_driveName_net :
    (∀ p ∈ (net (moves path)).2.tail, ¬ IsDriveName p) ∧
      (named ((components path).getLastD []) = false →
        ∀ p ∈ (net (moves path)).2, ¬ IsDriveName p) := by
  obtain ⟨front, l, hfront⟩ := (List.eq_nil_or_concat' (components path)).resolve_left
    (components_ne_nil path)
  have hget : (front ++ [l]).getLastD [] = l := by
    rw [List.getLastD_eq_getLast?, List.getLast?_concat]
    rfl
  have hfree := not_driveName (by decide) h.unmarked
  rw [hfront, List.dropLast_concat] at hfree
  rw [moves, hfront, hget]
  refine ⟨fun p hp => hfree p (mem_net_front (Or.inl hp)), fun hl p hp => ?_⟩
  refine hfree p (mem_net_front (Or.inr ⟨fun q hq => ?_, hp⟩))
  rcases (named_eq_false l).mp hl with hm | hm
  · rw [hm] at hq
    cases hq
  · rw [hm] at hq
    cases hq

/-- Behind a last name no separator is written. -/
theorem not_named_of_endsOpen (hR : (net (moves path)).2 ≠ []) (hopen : endsOpen path = true) :
    named ((components path).getLastD []) = false := by
  by_contra hl
  have hl : named ((components path).getLastD []) = true := by simpa using hl
  have hends : Norm.endsAt .start path = false := by
    cases hm : move ((components path).getLastD []) with
    | stay =>
      rw [(named_eq_false _).mpr (Or.inl hm)] at hl
      cases hl
    | up =>
      rw [(named_eq_false _).mpr (Or.inr hm)] at hl
      cases hl
    | name q =>
      rw [Norm.endsAt, Norm.ends, hm]
      exact Bool.and_false _
  obtain ⟨D, r, ps, hD, hrev, -, htext⟩ := normntpath_relative h.plain h.relative
  obtain ⟨p, R, hp⟩ := List.exists_cons_of_ne_nil hR
  have hproper : Proper p := by
    apply (mem_net (w := path) _).2
    rw [hp]
    exact List.mem_cons_self
  have hlast : (r :: ps).getLast? = some p := by
    rw [← List.head?_reverse, hrev, hp]
    rfl
  have hno : ∀ t ∈ r :: ps, ∀ x ∈ t, isSlash x = false := by
    intro t ht
    rw [← List.mem_reverse, hrev] at ht
    rcases List.mem_append.mp ht with ht | ht
    · exact (mem_net ht).2.noSlash
    · rcases dots_cases hD t ht with rfl | rfl <;> decide
  have hcomp : components (normntpath path) = r :: ps := by
    rw [htext, hends, components_below isSlash_bslash (hno r (by simp)) fun t ht => hno t (by simp [ht])]
    simp
  have hnamed : named p = true := by simp [named, hproper.ne_nil, hproper.ne_dot, hproper.ne_dotdot]
  rw [endsOpen, hcomp, List.getLastD_eq_getLast?, hlast, Option.getD_some, hnamed] at hopen
  cases hopen

end JoinedText

/-! ## On a drive -/

/-- `\\?\X:\.\` and the files, what `__mkntpath2` writes where the first component is
taken back. -/
def dotted (c : UInt16) (files : List Str) (path : Str) : Str :=
  drivePre c ++ dot :: belowVol bslash files (!named ((components path).getLastD []))

theorem resolved_dot (ps : List Str) : resolved ([dot] :: ps) = resolved ps := rfl

theorem literal_dot (ps : List Str) : literal ([dot] :: ps) = none := by
  have hmem : [dot] ∈ if ([dot] :: ps).getLast? = some [] then ([dot] :: ps).dropLast else [dot] :: ps := by
    split
    · rename_i hlast
      cases ps with
      | nil => exact absurd hlast (by decide)
      | cons p ps => simp
    · simp
  simp only [literal]
  rw [if_neg]
  intro hall
  exact absurd (List.all_eq_true.mp hall [dot] hmem) (by decide)

section Drive

variable {env : Env} {roots : Roots} {c : UInt16} {ds : List Str} {trailing : Bool} {path : Str}
  (h : AtCall env roots (.drive c) ds trailing path)

include h

theorem mkntpath2_joined (known : Roots) :
    (env.mkntpath2 known (unixJoin (.drive c) ds path)).2 =
      if RoomFor env (.drive c) ds path then
        .ok (downgrade 244 (drivePre c ++ normntpath (joinRest ds path).tail))
      else .error .enametoolong := by
  have hm := noMarks_unixJoin h
  have hpm := env.pathMax_ge
  have hiff : RoomFor env (.drive c) ds path ↔
      ¬ (joinRest ds path).tail.length ≥ min 32767 env.pathMax - 7 - 1 := by
    rw [RoomFor, unixJoin_drive, joinRest_eq]
    simp only [List.length_cons, List.tail_cons]
    omega
  rw [unixJoin_drive, joinRest_eq] at hm
  rw [Env.mkntpath2, unixJoin_drive, joinRest_eq, env.mkntpath2From_drive 2 known h.vol.1 h.vol.2 hm,
    List.tail_cons]
  by_cases hroom : RoomFor env (.drive c) ds path
  · rw [if_neg (hiff.mp hroom), if_pos hroom]
  · rw [if_pos (by by_contra hc; exact hroom (hiff.mpr hc)), if_neg hroom]

/-- **The file** the joined spelling is converted to, while the path stays on the drive. -/
theorem ntFile_joined (hk : (net (moves path)).1 ≤ ds.length) :
    ntFile (downgrade 244 (drivePre c ++ normntpath (joinRest ds path).tail)) =
      if Norm.keepsFirst (joinRest ds path).tail = true ∨
          (dotted c (clamp ds.reverse (moves path)).reverse path).length < 244 then
        some (.drive c, (clamp ds.reverse (moves path)).reverse)
      else none := by
  obtain ⟨w, hw⟩ : ∃ w, (joinRest ds path).tail = w := ⟨_, rfl⟩
  obtain ⟨files, hfiles⟩ : ∃ files, (clamp ds.reverse (moves path)).reverse = files := ⟨_, rfl⟩
  have hrest : joinRest ds path = slash :: w := by rw [joinRest_eq, hw]
  have hcomp : components w = ds ++ components path := by
    have := components_joinRest h
    rw [hrest, components_sep isSlash_slash] at this
    exact (List.cons.inj this).2
  have hplain : Plain w := by
    intro x hx
    apply plain_joinRest h
    rw [hrest]
    exact List.mem_cons_of_mem _ hx
  have hnet : net (moves w) = (0, files.reverse) := by
    have := net_joinRest h
    rw [hrest, moves_sep isSlash_slash] at this
    have hstay : net (.stay :: moves w) = net (moves w) := rfl
    rw [hstay] at this
    rw [this, atop, if_pos (by simpa using hk), ← hfiles, List.reverse_reverse, clamp_eq_net]
  have hhead : ∃ x ∈ w.head?, isSlash x = false := by
    cases hd : ds with
    | nil =>
      have : w = path := by
        rw [← hw, hd]
        rfl
      rw [this]
      exact head_of_relative h.relative
    | cons d ds' =>
      rw [hd, List.cons_append] at hcomp
      exact head_of_components hcomp (h.names d (by simp [hd])).proper
  have hproper : ∀ p ∈ files, Proper p := by
    intro p hp
    have : p ∈ (net (moves w)).2 := by
      rw [hnet]
      exact List.mem_reverse.mpr hp
    exact (mem_net this).2
  have hno : ∀ p ∈ files, ∀ x ∈ p, isSlash x = false := fun p hp => (hproper p hp).noSlash
  obtain ⟨D, hD, hrun, -, hkeep⟩ := Norm.run_start hhead
  rw [hnet] at hD hrun
  rw [hw, hfiles]
  by_cases hkeeps : Norm.keepsFirst w = true
  · rw [if_pos (Or.inl hkeeps)]
    have hrun : Norm.run .start w = ⟨false, files.reverse⟩ := by
      rw [hrun, hkeep.mpr hkeeps, List.append_nil]
    cases hf : files with
    | nil =>
      rw [hf] at hrun
      exact absurd hrun (Norm.foldl_ne_start (components_ne_nil w))
    | cons q ps =>
      rw [hf] at hrun hproper hno
      apply ntFile_downgrade_drive 244 h.vol.1
      rw [normntpath_text hplain.legible hhead hrun, List.append_assoc, ← belowVol, components_below
        isSlash_bslash (hno q (by simp)) fun p hp => hno p (by simp [hp])]
      exact Reads.of_below hproper
  · -- a `.` stands in front, and `\\?\` takes it for a name
    have hdot : D = [[dot]] := by
      rcases hD with ⟨-, hD | hD⟩ | ⟨hpos, -⟩
      · exact absurd (hkeep.mp hD) hkeeps
      · exact hD
      · exact absurd hpos (Nat.lt_irrefl 0)
    have hrun : Norm.run .start w = ⟨false, ([dot] :: files).reverse⟩ := by
      rw [hrun, hdot]
      simp
    have hlength : (drivePre c ++ ([dot] ++ belowVol bslash files (Norm.endsAt .start w))).length < 244 ↔
        (dotted c files path).length < 244 := by
      cases hf : files with
      | nil =>
        have : ∀ e, (drivePre c ++ ([dot] ++ belowVol bslash [] e)).length < 244 := by
          intro e
          cases e
          · show 8 < 244
            decide
          · show 9 < 244
            decide
        exact ⟨fun _ => this _, fun _ => this _⟩
      | cons q ps =>
        have hends : Norm.endsAt .start w = !named ((components path).getLastD []) := by
          rw [Norm.endsAt_eq, hcomp, List.getLastD_eq_getLast?, List.getLastD_eq_getLast?,
            getLast_append_ne (components_ne_nil path)]
          · apply Norm.foldl_ne_start
            intro hnil
            obtain ⟨front, l, hfront⟩ := (List.eq_nil_or_concat' (components w)).resolve_left
              (components_ne_nil w)
            rw [hfront, List.dropLast_concat] at hnil
            rw [Norm.run, hfront, hnil, hf] at hrun
            have := congrArg (fun s => s.st.length) hrun
            simp [Norm.next] at this
          · rw [hrun, hf, List.head?_reverse, List.getLast?_cons_cons]
            intro t ht
            exact Norm.solid_of_proper (hproper t (hf ▸ List.mem_of_getLast? ht))
        rw [hends]
        rfl
    rw [normntpath_text hplain.legible hhead hrun, List.append_assoc, ← belowVol, downgrade_drive]
    have hreads := @Reads.of_below files (Norm.endsAt .start w) hproper
    have hparts : components ([dot] ++ belowVol bslash files (Norm.endsAt .start w)) =
        [dot] :: files ++ (if Norm.endsAt .start w then [[]] else []) :=
      components_below isSlash_bslash (by decide) hno
    by_cases hlen : (dotted c files path).length < 244
    · rw [if_pos (hlength.mpr hlen), if_pos (Or.inr hlen), ntFile_drive h.vol.1, hparts,
        List.cons_append, resolved_dot, hreads.resolved]
    · rw [if_neg (fun hc => hlen (hlength.mp hc)), if_neg (fun hc => hc.elim hkeeps hlen),
        ntFile_drive_long h.vol.1, hparts,
        List.cons_append, literal_dot]
      rfl

/-- **Above the drive** the joined text is not on it any more. -/
theorem not_drive_above (hk : ds.length < (net (moves path)).1) (ps : List Str) :
    ntFile (downgrade 260 (joinedText (.drive c) ds trailing path)) ≠ some (.drive c, ps) := by
  intro hfile
  have hc : ∀ p, p = [c, colon] → IsDriveName p := by
    rintro p rfl
    exact ⟨c, h.vol.1, rfl⟩
  have hmem := mem_of_downgrade (by simp) (mem_of_ntFile_drive hfile)
  obtain ⟨htail, hall⟩ := not_driveName_net h
  by_cases hle : (net (moves path)).1 ≤ (volParts (.drive c) ++ ds).length
  · rw [joinedText_eq h hle] at hmem
    have hfront : ∀ p ∈ (volParts (.drive c) ++ ds).take
        ((volParts (.drive c) ++ ds).length - (net (moves path)).1), p = [quest] := by
      have hlen : (volParts (.drive c) ++ ds).length - (net (moves path)).1 ≤ 1 := by
        have : (volParts (.drive c)).length = 2 := rfl
        rw [List.length_append, this]
        omega
      intro p hp
      have hp := List.take_subset_take_left _ hlen hp
      exact List.mem_singleton.mp hp
    generalize (volParts (.drive c) ++ ds).take
        ((volParts (.drive c) ++ ds).length - (net (moves path)).1) = Q at hfront hmem
    have hproper : ∀ p ∈ Q ++ (net (moves path)).2.reverse, Proper p := by
      intro p hp
      rcases List.mem_append.mp hp with hp | hp
      · rw [hfront p hp]
        exact ⟨by decide, by decide, by decide, by decide⟩
      · exact (mem_net (List.mem_reverse.mp hp)).2
    rw [components_joined hproper] at hmem
    have hstart : [c, colon] ∉ [[], []] ++ Q := by
      intro hp
      rcases List.mem_append.mp hp with hp | hp
      · simp at hp
      · exact absurd (hfront _ hp) (by simp)
    cases hopen : endsOpen path with
    | true =>
      rw [hopen, if_pos rfl, ← List.append_assoc, List.dropLast_concat, ← List.append_assoc] at hmem
      rcases List.mem_append.mp hmem with hp | hp
      · exact hstart hp
      · have hp := List.mem_reverse.mp hp
        exact hall (not_named_of_endsOpen h (List.ne_nil_of_mem hp) hopen) _ hp (hc _ rfl)
    | false =>
      rw [hopen, if_neg (by decide), List.append_nil, ← List.append_assoc, List.dropLast_append] at hmem
      split at hmem
      · exact hstart (List.dropLast_subset _ hmem)
      · rcases List.mem_append.mp hmem with hp | hp
        · exact hstart hp
        · rw [List.dropLast_reverse] at hp
          exact htail _ (List.mem_reverse.mp hp) (hc _ rfl)
  · obtain ⟨t, ht⟩ := joinedText_dots h (by omega)
    rw [ht, ntFile_dot] at hfile
    cases hfile

end Drive

/-! ## On a share -/

/-- The share list of the server is at hand, and the path left under the server fits. -/
def Listed (env : Env) (server path : Str) : Prop :=
  (env.serverDir server).isSome = true ∧
    width8 (server ++ belowVol bslash (net (moves path)).2.reverse (path.getLast?.any isSlash)) + 2 <
      env.pathMax

theorem text_belowVol (a l : Str) (ps : List Str) :
    a ++ spell bslash ps ++ (if named l then [] else [bslash]) = a ++ belowVol bslash ps (!named l) := by
  cases hl : named l <;> simp [belowVol]

section Share

variable {env : Env} {roots : Roots} {server name : Str} {ds : List Str} {trailing : Bool}
  {path : Str} (h : AtCall env roots (.share server name) ds trailing path)

include h

/-- What is left of the path on the share. -/
theorem net_low (hk : (net (moves path)).1 ≤ ds.length) :
    net (moves (joinRest ds path)) = (0, clamp ds.reverse (moves path)) := by
  rw [net_joinRest h, atop, if_pos (by simpa using hk), clamp_eq_net]

theorem net_high (hk : ds.length < (net (moves path)).1) :
    net (moves (joinRest ds path)) = ((net (moves path)).1 - ds.length, (net (moves path)).2) := by
  rw [net_joinRest h, atop, if_neg (by rw [List.length_reverse]; omega), List.length_reverse]

omit h in
theorem roomFor_share : RoomFor env (.share server name) ds path ↔
    (shareRoot slash server name).length + (joinRest ds path).length < min 32767 env.pathMax - 9 := by
  have hlen : (sharePath slash server name (joinRest ds path)).length =
      2 + ((shareRoot slash server name).length + (joinRest ds path).length) := by
    simp only [sharePath, List.length_cons, List.length_append]
    omega
  rw [RoomFor, unixJoin_share, hlen]
  show _ + 7 < _ ↔ _
  omega

theorem plain_joinRoot : Plain (shareRoot slash server name ++ joinRest ds path) := by
  intro x hx
  rcases List.mem_append.mp hx with hx | hx
  · have hdir := h.plainDir x
    rw [ntPath_share] at hdir
    rcases List.mem_append.mp hx with hx | hx
    · exact hdir (by simp [hx])
    · rcases List.mem_cons.mp hx with rfl | hx
      · exact fun _ => isSlash_slash
      · exact hdir (by simp [hx])
  · exact plain_joinRest h x hx

omit h in
theorem sharePre_below (ps : List Str) (e : Bool) : sharePre server name ++ belowVol bslash ps e =
    longMark ++ uncMark ++ (server ++ belowVol bslash (name :: ps) e) := by
  simp [sharePre, belowVol, spell]

/-- **On the share** the joined spelling is converted to the same file. -/
theorem convert_below (hroom : RoomFor env (.share server name) ds path)
    (hk : (net (moves path)).1 ≤ ds.length) (known : Roots) :
    ∃ nt, (env.mkntpath2 known (unixJoin (.share server name) ds path)).2 = .ok nt ∧
      ntFile nt = some (.share server name, (clamp ds.reverse (moves path)).reverse) := by
  have hm := noMarks_unixJoin h
  have hn := h.vol.2.2.proper
  have hnet := net_low h hk
  have hall : ∀ p ∈ name :: (clamp ds.reverse (moves path)).reverse, Proper p := by
    intro p hp
    rcases List.mem_cons.mp hp with rfl | hp
    · exact hn
    · exact proper_files h p hp
  rw [roomFor_share] at hroom
  rw [unixJoin_share] at hm ⊢
  by_cases hw : Short server name
  · rw [Env.mkntpath2, env.mkntpath2From_share 2 known isSlash_slash h.vol.2.1 hn below_joinRest hw hm,
      if_neg (by omega), normuncrest_net, hnet, if_neg (by simp)]
    refine ⟨_, rfl, ?_⟩
    rw [sharePre_below, ntFile_names 244 h.vol.2.1 hall, if_pos h.vol.2.2.isName]
  · have hstack : (clamp [name] (moves (joinRest ds path))).reverse =
        name :: (clamp ds.reverse (moves path)).reverse := by
      rw [clamp_eq_net [name], hnet]
      simp
    have htext := normntpath_low isSlash_slash h.vol.2.1 hn below_joinRest (plain_joinRoot h)
      (by rw [hnet]; exact Nat.zero_le 1)
    rw [Env.mkntpath2, env.mkntpath2From_share_long 2 known isSlash_slash h.vol.2.1 hn below_joinRest hw
      hm, if_neg (by rw [List.length_append]; omega), htext, hstack, text_belowVol]
    refine ⟨_, rfl, ?_⟩
    rw [ntFile_names 244 h.vol.2.1 hall, if_pos h.vol.2.2.isName]

/-- What a path that leaves the share is normalized to. -/
theorem normuncrest_high (hk : ds.length < (net (moves path)).1) (hR : (net (moves path)).2 ≠ []) :
    normuncrest (joinRest ds path) =
      (belowVol bslash (net (moves path)).2.reverse (path.getLast?.any isSlash), true) := by
  have hlast : (joinRest ds path).getLast? = path.getLast? := by
    obtain ⟨c, hc, -⟩ := head_of_relative h.relative
    cases path with
    | nil => cases hc
    | cons d path =>
      rw [joinRest, List.getLast?_append_of_ne_nil _ (by simp), List.getLast?_cons_cons]
  have hempty : (net (moves path)).2.isEmpty = false := by simpa using hR
  rw [normuncrest_net, net_high h hk, hlast, hempty, Bool.not_false, Bool.and_true]
  congr 1
  exact decide_eq_true (Nat.sub_pos_of_lt hk)

omit h in
theorem listed_iff (body : Str) :
    (width8 body < env.pathMax - 1 ∧ width8 (slash :: slash :: server ++ body) < env.pathMax ∧
      (env.serverDir server).isSome = true) ↔
      (env.serverDir server).isSome = true ∧ width8 (server ++ body) + 2 < env.pathMax := by
  have hs : unitWidth slash = 1 := by decide
  have hfull : width8 (slash :: slash :: server ++ body) = width8 server + width8 body + 2 := by
    simp [width8, hs]
    omega
  have happ : width8 (server ++ body) = width8 server + width8 body := by simp [width8]
  rw [hfull, happ]
  constructor
  · rintro ⟨-, h₂, h₃⟩
    exact ⟨h₃, h₂⟩
  · rintro ⟨h₁, h₂⟩
    exact ⟨by omega, h₂, h₁⟩

/-- **Above a share** that is found, what is left is a path on the server. -/
theorem convert_listed (hroom : RoomFor env (.share server name) ds path)
    (hw : Short server name) (hk : ds.length < (net (moves path)).1) {n : Str} {ps : List Str}
    (hR : (net (moves path)).2.reverse = n :: ps) (hlisted : Listed env server path) (known : Roots) :
    ∃ nt, (env.mkntpath2 known (unixJoin (.share server name) ds path)).2 = .ok nt ∧
      ntFile nt = if isName n then some (.share server n, ps) else none := by
  have hm := noMarks_unixJoin h
  have hne : (net (moves path)).2 ≠ [] := by
    intro he
    rw [he] at hR
    cases hR
  have hmem : ∀ p ∈ n :: ps, p ∈ (net (moves path)).2 := by
    intro p hp
    rw [← hR] at hp
    exact List.mem_reverse.mp hp
  have hp : ∀ p ∈ n :: ps, Proper p := fun p hp => (mem_net (hmem p hp)).2
  have hbody := normuncrest_high h hk hne
  have hlen : (normuncrest (joinRest ds path)).1.length ≤ (joinRest ds path).length := by
    have := weight_body_le (f := fun _ => 1) (fun _ _ => rfl) (@below_joinRest ds path)
    rwa [weight_one, weight_one] at this
  obtain ⟨htail, hall⟩ := not_driveName_net h
  have hserver : ¬ IsDriveName server := by
    rintro ⟨c, -, hc⟩
    exact h.vol.1.noColon (by simp [hc])
  have hclose : path.getLast?.any isSlash = true → ∀ p ∈ n :: ps, ¬ IsDriveName p := by
    intro ht p hp
    refine hall ?_ p (hmem p hp)
    obtain ⟨w, c, hwc⟩ := (List.eq_nil_or_concat' path).resolve_left (by
      rintro rfl
      simp at ht)
    have hc : isSlash c = true := by simpa [hwc] using ht
    rw [hwc, components_trailing w hc, List.getLastD_eq_getLast?, List.getLast?_concat]
    rfl
  rw [roomFor_share] at hroom
  rw [hbody, hR] at hlen
  dsimp only at hlen
  have hroot : (shareRoot slash server name).length = server.length + 1 + name.length := by
    simp [shareRoot]
    omega
  have happ : ∀ t, server ++ belowVol bslash (n :: ps) t =
      shareRoot bslash server n ++ belowVol bslash ps t := by
    intro t
    simp [shareRoot, belowVol, spell]
  have hplain : Plain (shareRoot bslash server n ++ belowVol bslash ps (path.getLast?.any isSlash)) := by
    rw [← happ]
    refine plain_below isSlash_bslash fun q hq x hx => ?_
    rcases List.mem_cons.mp hq with rfl | hq
    · exact plain_joinRoot h x (by simp [shareRoot, hx])
    · exact h.plain x (mem_of_mem_components (mem_net (hmem q hq)).1 hx)
  have hnames : ∀ roots', (env.mkntpath2From 2 roots' (sharePath bslash server n _)).2 = _ :=
    fun roots' => mkntpath2From_names 1 roots' isSlash_bslash h.vol.2.1 hp
      (noMarks_sharePath isSlash_bslash h.vol.2.1 hp hserver (dropLast_of_reverse hR htail) hclose)
      (Or.inr hplain) (by
        rw [← happ, List.length_append]
        omega)
  rw [Listed, hR, ← listed_iff] at hlisted
  rw [unixJoin_share] at hm ⊢
  rw [Env.mkntpath2, env.mkntpath2From_share 2 known isSlash_slash h.vol.2.1 h.vol.2.2.proper
    below_joinRest hw hm, if_neg (by omega), hbody, hR, if_pos ⟨rfl, hlisted⟩, List.cons_append,
    List.cons_append, happ, ← sharePath, hnames]
  refine ⟨_, rfl, ?_⟩
  have htext : ∀ e : Bool, converted server (n :: ps) ++ (if e then [bslash] else []) =
      longMark ++ uncMark ++ (server ++ belowVol bslash (n :: ps) e) := by
    intro e
    simp only [converted, belowVol, List.append_assoc]
  rw [htext, ntFile_names 244 h.vol.2.1 hp]

/-- Where the server cannot be listed, the share stays in front. -/
theorem convert_unlisted (hroom : RoomFor env (.share server name) ds path)
    (hw : Short server name) (hk : ds.length < (net (moves path)).1)
    (hR : (net (moves path)).2 ≠ []) (hlisted : ¬ Listed env server path) (known : Roots) :
    ∃ nt, (env.mkntpath2 known (unixJoin (.share server name) ds path)).2 = .ok nt ∧
      ntFile nt = some (.share server name, (net (moves path)).2.reverse) := by
  have hm := noMarks_unixJoin h
  have hall : ∀ p ∈ name :: (net (moves path)).2.reverse, Proper p := by
    intro p hp
    rcases List.mem_cons.mp hp with rfl | hp
    · exact h.vol.2.2.proper
    · exact (mem_net (List.mem_reverse.mp hp)).2
  rw [Listed, ← listed_iff] at hlisted
  rw [roomFor_share] at hroom
  rw [unixJoin_share] at hm ⊢
  rw [Env.mkntpath2, env.mkntpath2From_share 2 known isSlash_slash h.vol.2.1 h.vol.2.2.proper
    below_joinRest hw hm, if_neg (by omega), normuncrest_high h hk hR, if_neg fun hc => hlisted hc.2]
  refine ⟨_, rfl, ?_⟩
  rw [sharePre_below, ntFile_names 244 h.vol.2.1 hall, if_pos h.vol.2.2.isName]

/-- A root that is not found is normalized with the rest: one up, and the server is left. -/
theorem convert_long_one (hroom : RoomFor env (.share server name) ds path)
    (hw : ¬ Short server name) (hk : (net (moves path)).1 = ds.length + 1) {n : Str} {ps : List Str}
    (hR : (net (moves path)).2.reverse = n :: ps) (known : Roots) :
    ∃ nt, (env.mkntpath2 known (unixJoin (.share server name) ds path)).2 = .ok nt ∧
      ntFile nt = if isName n then some (.share server n, ps) else none := by
  have hm := noMarks_unixJoin h
  have hp : ∀ p ∈ n :: ps, Proper p := by
    intro p hp
    rw [← hR] at hp
    exact (mem_net (List.mem_reverse.mp hp)).2
  have hnet := net_high h (by omega)
  have hone : (net (moves path)).1 - ds.length = 1 := by omega
  rw [hone] at hnet
  have hstack : (clamp [name] (moves (joinRest ds path))).reverse = n :: ps := by
    rw [clamp_eq_net [name], hnet, ← hR]
    simp
  have htext := normntpath_low isSlash_slash h.vol.2.1 h.vol.2.2.proper below_joinRest
    (plain_joinRoot h) (by rw [hnet])
  rw [roomFor_share] at hroom
  rw [unixJoin_share] at hm ⊢
  rw [Env.mkntpath2, env.mkntpath2From_share_long 2 known isSlash_slash h.vol.2.1 h.vol.2.2.proper
    below_joinRest hw hm, if_neg (by rw [List.length_append]; omega), htext, hstack, text_belowVol]
  exact ⟨_, rfl, ntFile_names 244 h.vol.2.1 hp _⟩

/-- Further up, and the server is gone too. -/
theorem convert_long_high (hroom : RoomFor env (.share server name) ds path)
    (hw : ¬ Short server name) (hk : ds.length + 1 < (net (moves path)).1) (known : Roots) :
    ∃ nt, (env.mkntpath2 known (unixJoin (.share server name) ds path)).2 = .ok nt ∧
      ∀ ps, ntFile nt ≠ some (.share server name, ps) := by
  have hm := noMarks_unixJoin h
  have hnet := net_high h (by omega)
  obtain ⟨d, D, htext⟩ := normntpath_high isSlash_slash h.vol.2.1 h.vol.2.2.proper below_joinRest
    (plain_joinRoot h) (by rw [hnet]; show 2 ≤ _ - _; omega)
  rw [roomFor_share] at hroom
  rw [unixJoin_share] at hm ⊢
  rw [Env.mkntpath2, env.mkntpath2From_share_long 2 known isSlash_slash h.vol.2.1 h.vol.2.2.proper
    below_joinRest hw hm, if_neg (by rw [List.length_append]; omega), htext]
  refine ⟨_, rfl, fun ps hfile => ?_⟩
  exact h.vol.2.1.ne_dot (server_of_dot hfile)

theorem too_long (hroom : ¬ RoomFor env (.share server name) ds path) (known : Roots) :
    (env.mkntpath2 known (unixJoin (.share server name) ds path)).2 = .error .enametoolong := by
  have hm := noMarks_unixJoin h
  rw [roomFor_share] at hroom
  rw [unixJoin_share] at hm ⊢
  by_cases hw : Short server name
  · rw [Env.mkntpath2, env.mkntpath2From_share 2 known isSlash_slash h.vol.2.1 h.vol.2.2.proper
      below_joinRest hw hm, if_pos (by omega)]
  · rw [Env.mkntpath2, env.mkntpath2From_share_long 2 known isSlash_slash h.vol.2.1 h.vol.2.2.proper
      below_joinRest hw hm, if_pos (by rw [List.length_append]; omega)]

/-- **Above the share** the joined text is left with what its root is cut down to. -/
theorem joinedText_high {j : Nat} (hk : (net (moves path)).1 = ds.length + j) (hj : j ≤ 4) :
    joinedText (.share server name) ds trailing path = bslash :: belowVol bslash
      ([[quest], unc, server, name].take (4 - j) ++ (net (moves path)).2.reverse) (endsOpen path) := by
  have hlen : (volParts (.share server name) ++ ds).length = 4 + ds.length := by
    rw [List.length_append]
    rfl
  have htake : (volParts (.share server name) ++ ds).take
      ((volParts (.share server name) ++ ds).length - (net (moves path)).1) =
        [[quest], unc, server, name].take (4 - j) := by
    rw [hlen, hk, List.take_append_of_le_length (by show _ ≤ 4; omega)]
    show List.take _ [[quest], unc, server, name] = _
    congr 1
    omega
  rw [joinedText_eq h (by rw [hlen]; omega), htake]

/-- A joined text on the share from above it has the share among the path's names. -/
theorem share_of_high (hk : ds.length < (net (moves path)).1) {ps : List Str}
    (hfile : ntFile (downgrade 260 (joinedText (.share server name) ds trailing path)) =
      some (.share server name, ps)) :
    ((net (moves path)).1 = ds.length + 1 ∧ ∃ qs, (net (moves path)).2.reverse = name :: qs ∧
      ps.length ≤ qs.length) ∨
    (ds.length + 1 < (net (moves path)).1 ∧ ps.length + 2 ≤ (net (moves path)).2.length) := by
  obtain ⟨j, hj⟩ : ∃ j, (net (moves path)).1 = ds.length + j := Nat.exists_eq_add_of_le (by omega)
  by_cases hle : j ≤ 4
  · rw [joinedText_high h hj hle] at hfile
    have hproper : ∀ p ∈ [[quest], unc, server, name].take (4 - j) ++ (net (moves path)).2.reverse,
        Proper p := by
      intro p hp
      rcases List.mem_append.mp hp with hp | hp
      · exact proper_volParts h p (List.mem_append_left _ (List.mem_of_mem_take hp))
      · exact (mem_net (List.mem_reverse.mp hp)).2
    obtain ⟨hname, pre, qs, hL, hps, hpre⟩ := joined_share hproper hfile
    have hserver : server ≠ [quest] := by
      rintro rfl
      exact absurd hname (by decide)
    have hlen := congrArg List.length hL
    simp only [List.length_append, List.length_take, List.length_cons, List.length_nil,
      List.length_reverse] at hlen
    obtain ⟨m, hm, hmj⟩ : ∃ m, 4 - j = m ∧ m < 4 := ⟨_, rfl, by omega⟩
    rw [hm] at hL hlen
    match m, hmj, hL, hlen with
    | 0, _, hL, hlen =>
      right
      omega
    | m + 1, _, hL, hlen =>
      rcases hpre with rfl | rfl | rfl
      · exact absurd (List.cons.inj hL).1.symm hserver
      · by_cases hone : j = 1
        · left
          obtain rfl : m = 2 := by omega
          have hL : [quest] :: unc :: server :: (net (moves path)).2.reverse =
              [quest] :: unc :: server :: name :: qs := hL
          simp only [List.cons.injEq, true_and] at hL
          exact ⟨by omega, qs, hL, hps⟩
        · right
          simp only [List.length_cons, List.length_nil] at hlen
          omega
      · by_cases hone : j = 1
        · obtain rfl : m = 2 := by omega
          have hL : [quest] :: unc :: server :: (net (moves path)).2.reverse =
              [quest] :: unc :: [quest] :: unc :: server :: name :: qs := hL
          simp only [List.cons.injEq, true_and] at hL
          exact absurd hL.1 hserver
        · right
          simp only [List.length_cons, List.length_nil] at hlen
          omega
  · obtain ⟨t, ht⟩ := joinedText_dots h (by
      have : (volParts (.share server name)).length = 4 := rfl
      rw [List.length_append, this]
      omega)
    rw [ht, ntFile_dot] at hfile
    cases hfile

end Share

/-! ## Agreement -/

/-- The path produced is on the volume `v`, and names the file that `__mkntpath2` finds
under the directory's unix spelling joined with the path. -/
def Lands (env : Env) (v : Vol) (ds : List Str) (path out : Str) : Prop :=
  ∃ ps, ntFile out = some (v, ps) ∧
    ∀ known, ∃ nt, (env.mkntpath2 known (unixJoin v ds path)).2 = .ok nt ∧ ntFile nt = some (v, ps)

/-- The path goes up no further than the volume's root, or one further and back into
the same share. A drive path that takes back its first component is short. -/
def Within (env : Env) (v : Vol) (ds : List Str) (path : Str) : Prop :=
  RoomFor env v ds path ∧
    match v with
    | .drive c =>
        (net (moves path)).1 ≤ ds.length ∧
          (Norm.keepsFirst (joinRest ds path).tail = true ∨
            (dotted c (clamp ds.reverse (moves path)).reverse path).length < 244)
    | .share server name =>
        (net (moves path)).1 ≤ ds.length ∨
          ((net (moves path)).1 = ds.length + 1 ∧ (net (moves path)).2.getLast? = some name ∧
            (Short server name → Listed env server path))

section Agreement

variable {env : Env} {roots : Roots} {ds : List Str} {trailing : Bool} {path : Str}

theorem lands_drive {c : UInt16} (h : AtCall env roots (.drive c) ds trailing path) :
    Lands env (.drive c) ds path (downgrade 260 (joinedText (.drive c) ds trailing path)) ↔
      Within env (.drive c) ds path := by
  constructor
  · rintro ⟨ps, hfile, hall⟩
    have hk : (net (moves path)).1 ≤ ds.length := by
      by_contra hk
      exact not_drive_above h (by omega) ps hfile
    obtain ⟨nt, hnt, hfile'⟩ := hall []
    rw [mkntpath2_joined h] at hnt
    split at hnt
    · rename_i hroom
      rw [← Except.ok.inj hnt, ntFile_joined h hk] at hfile'
      split at hfile'
      · rename_i hcond
        exact ⟨hroom, hk, hcond⟩
      · cases hfile'
    · cases hnt
  · rintro ⟨hroom, hk, hcond⟩
    refine ⟨_, ntFile_low h hk, fun known => ⟨_, by rw [mkntpath2_joined h, if_pos hroom], ?_⟩⟩
    rw [ntFile_joined h hk, if_pos hcond]

theorem lands_share {server name : Str} (h : AtCall env roots (.share server name) ds trailing path) :
    Lands env (.share server name) ds path
        (downgrade 260 (joinedText (.share server name) ds trailing path)) ↔
      Within env (.share server name) ds path := by
  constructor
  · rintro ⟨ps, hfile, hall⟩
    obtain ⟨nt, hnt, hfile'⟩ := hall []
    have hroom : RoomFor env (.share server name) ds path := by
      by_contra hroom
      rw [too_long h hroom] at hnt
      cases hnt
    refine ⟨hroom, ?_⟩
    by_cases hk : (net (moves path)).1 ≤ ds.length
    · exact Or.inl hk
    · right
      have hrev : (net (moves path)).2.reverse.length = (net (moves path)).2.length :=
        List.length_reverse
      -- a share that stays in front has more files than the joined text can name
      have hunlisted : Short server name → ¬ Listed env server path → (net (moves path)).2 ≠ [] →
          ps.length = (net (moves path)).2.length := by
        intro hw hl hR
        obtain ⟨nt', hnt', hf⟩ := convert_unlisted h hroom hw (by omega) hR hl []
        rw [hnt'] at hnt
        rw [← Except.ok.inj hnt, hf] at hfile'
        have : (net (moves path)).2.reverse = ps := congrArg Prod.snd (Option.some.inj hfile')
        rw [← this, hrev]
      rcases share_of_high h (by omega) hfile with ⟨hone, qs, hqs, hps⟩ | ⟨hhigh, hps⟩
      · rw [hqs, List.length_cons] at hrev
        refine ⟨hone, ?_, fun hw => ?_⟩
        · rw [← List.head?_reverse, hqs]
          rfl
        · by_contra hl
          have := hunlisted hw hl (by intro he; simp [he] at hqs)
          omega
      · exfalso
        have hR : (net (moves path)).2 ≠ [] := by
          intro he
          simp [he] at hps
        obtain ⟨n, rs, hn⟩ := List.exists_cons_of_ne_nil (List.reverse_ne_nil_iff.mpr hR)
        by_cases hw : Short server name
        · by_cases hl : Listed env server path
          · obtain ⟨nt', hnt', hf⟩ := convert_listed h hroom hw (by omega) hn hl []
            rw [hnt'] at hnt
            rw [← Except.ok.inj hnt, hf] at hfile'
            split at hfile'
            · have := congrArg (fun f => f.2.length) (Option.some.inj hfile')
              rw [hn, List.length_cons] at hrev
              simp only at this
              omega
            · cases hfile'
          · have := hunlisted hw hl hR
            omega
        · obtain ⟨nt', hnt', hf⟩ := convert_long_high h hroom hw hhigh []
          rw [hnt'] at hnt
          exact hf ps (by rw [Except.ok.inj hnt, hfile'])
  · rintro ⟨hroom, hk | ⟨hk, hname, hlisted⟩⟩
    · exact ⟨_, ntFile_low h hk, convert_below h hroom hk⟩
    · obtain ⟨qs, hqs⟩ : ∃ qs, (net (moves path)).2.reverse = name :: qs := by
        rw [← List.head?_reverse] at hname
        cases hr : (net (moves path)).2.reverse with
        | nil => simp [hr] at hname
        | cons n rs =>
          rw [hr] at hname
          obtain rfl : n = name := by simpa using hname
          exact ⟨rs, rfl⟩
      have hp : ∀ p ∈ name :: qs, Proper p := by
        intro p hp
        rw [← hqs] at hp
        exact (mem_net (List.mem_reverse.mp hp)).2
      have hn := h.vol.2.2.isName
      refine ⟨qs, ?_, fun known => ?_⟩
      · have htext : bslash :: belowVol bslash ([[quest], unc, server, name].take (4 - 1) ++ name :: qs)
            (endsOpen path) =
            longMark ++ uncMark ++ (server ++ belowVol bslash (name :: qs) (endsOpen path)) := by
          simp [belowVol, spell, longMark, uncMark, unc]
        rw [joinedText_high h hk (by decide), hqs, htext, ntFile_names 260 h.vol.2.1 hp, if_pos hn]
      · by_cases hw : Short server name
        · obtain ⟨nt, hnt, hf⟩ := convert_listed h hroom hw (by omega) hqs (hlisted hw) known
          exact ⟨nt, hnt, by rw [hf, if_pos hn]⟩
        · obtain ⟨nt, hnt, hf⟩ := convert_long_one h hroom hw hk hqs known
          exact ⟨nt, hnt, by rw [hf, if_pos hn]⟩

end Agreement

end ApeShim.Nt
