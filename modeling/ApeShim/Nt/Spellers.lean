import ApeShim.Nt.Mkntpath

/-!
The unix spelling of an NT path, as three places write it: `sys_getcwd_nt` for the
current directory, `nt_to_unix` of `shim/uncshare.c`, and `file_text` of
`shim/procfs/fd.c` for the links under /proc/self/fd.
-/

namespace ApeShim.Nt

/-- Backslashes forward. -/
def forward (s : Str) : Str := s.map fun c => if c = bslash then slash else c

/-- `c:\...` to `\c\...`. -/
def driveFirst (s : Str) : Str :=
  if alphaAt s 0 && s.getD 1 0 = colon && s.getD 2 0 = bslash then
    bslash :: s.getD 0 0 :: s.drop 2
  else s

/-- The longest start of a text that takes at most `n` bytes. -/
def take8 : Nat → Str → Str
  | _, [] => []
  | n, c :: s => if unitWidth c ≤ n then c :: take8 (n - unitWidth c) s else []

/-- `strncasecmp(path, us_root_unix, n)` and the tests behind it in `under_root`. -/
def underRoot (usRoot path : Str) : Option Str :=
  let n := usRoot.length
  if n ≠ 0 ∧ path.length ≥ n ∧ (path.take n).map lower16 = usRoot.map lower16 ∧
      path.getD n 0 = slash ∧ path.length > n + 1 then
    some (path.drop (n + 1))
  else none

/-- `__ape_shim_unc_cwd`. -/
def uncCwd (usRoot buf : Str) (size : Nat) : Str :=
  match underRoot usRoot buf with
  | none => buf
  | some rest => if width8 rest + 3 > size then buf else slash :: slash :: rest

inductive CwdErr
  | eacces | erange
  deriving DecidableEq, Repr

/-- `\\?\c:\...` to `c:\...`, as getcwd does it. -/
def stripDrive (p : Str) : Str :=
  if p.take 4 = longMark ∧ alphaAt p 4 = true ∧ p.getD 5 0 = colon ∧ p.getD 6 0 = bslash then p.drop 4
  else p

/-- Both `\\?\` forms, as `nt_to_unix` does it. -/
def stripLong (p : Str) : Str :=
  if p.take 8 = longMark ++ uncMark then bslash :: bslash :: p.drop 8
  else if p.take 4 = longMark ∧ alphaAt p 4 = true ∧ p.getD 5 0 = colon then p.drop 4
  else p

/-- `sys_getcwd_nt`, for the answer of `GetCurrentDirectory`. -/
def Env.getcwdNt (env : Env) (usRoot : Str) (roots : Roots) (p16 : Str) (size : Nat) :
    Roots × Except CwdErr Str :=
  if p16 = [] then (roots, .error .eacces)
  else if p16.length ≥ env.pathMax ∨ width8 p16 ≥ env.pathMax then (roots, .error .erange)
  else
    let p := driveFirst (stripDrive p16)
    if width8 p ≥ size then (roots, .error .erange)
    else
      let buf := uncCwd usRoot (forward p) size
      (uncNote roots buf, .ok buf)

/-- `nt_to_unix`, into a buffer of `outsz` bytes. -/
def Env.ntToUnix (env : Env) (p16 : Str) (outsz : Nat) : Str :=
  if width8 p16 ≥ env.pathMax - 1 then []
  else take8 (outsz - 1) (forward (driveFirst (stripLong p16)))

inductive FdText
  | path (s : Str)
  /-- `pipe:[...]` -/
  | pipe
  deriving DecidableEq, Repr

/-- Where `file_text` starts to copy. -/
def fdSkip (w : Str) : Nat :=
  if w.length > 4 ∧ w.take 3 = [bslash, bslash, quest] then
    if w.length > 8 ∧ (w.drop 4).take 3 = [0x55, 0x4E, 0x43] then 7 else 4
  else 0

/-- `file_text`, for the answer of `GetFinalPathNameByHandle` and a `text` of 512
bytes. -/
def fileText (w : Str) : FdText :=
  if w.length ≠ 0 ∧ w.length < 512 then
    let out := ((w.drop (fdSkip w)).take 511).map fun c =>
      if c = bslash then slash else if c < 128 then c else 0x5F
    if out.length ≥ 2 ∧ out.getD 1 0 = colon then .path (slash :: out.getD 0 0 :: out.drop 2)
    else .path out
  else .pipe

/-! ## The four forms -/

/-- `X:\` and `\\server\share`, or behind `\\?\`. -/
inductive Form
  | plain | long
  deriving DecidableEq, Repr

def ntPath (f : Form) (v : Vol) (ds : List Str) (trailing : Bool) : Str :=
  (match f, v with
    | .plain, .drive c => [c, colon]
    | .long, .drive c => longMark ++ [c, colon]
    | .plain, .share server name => bslash :: bslash :: (server ++ bslash :: name)
    | .long, .share server name => longMark ++ uncMark ++ (server ++ bslash :: name)) ++
  belowVol bslash ds trailing

def unixPath (v : Vol) (ds : List Str) (trailing : Bool) : Str :=
  (match v with
    | .drive c => [slash, c]
    | .share server name => slash :: slash :: (server ++ slash :: name)) ++
  belowVol slash ds trailing

/-- An ASCII name NT can have. -/
structure IsNtName (p : Str) : Prop where
  proper : Proper p
  ascii : ∀ x ∈ p, x < 0x80
  noColon : colon ∉ p
  noQuest : quest ∉ p

/-- A drive that exists, or a share. -/
def IsVol (drives : BitVec 32) : Vol → Prop
  | .drive c => isAlpha c.toNat = true ∧ driveExists drives c.toNat = true
  | .share server name => IsNtName server ∧ IsServer server ∧ IsNtName name

/-- The root of a drive ends with its separator. -/
def Rooted (v : Vol) (ds : List Str) (trailing : Bool) : Prop :=
  (∃ c, v = .drive c) → ds ≠ [] ∨ trailing = true

section

variable {v : Vol} {ds : List Str} {trailing : Bool}

theorem forward_name {p : Str} (h : ∀ x ∈ p, isSlash x = false) : forward p = p := by
  conv_rhs => rw [← List.map_id p]
  exact List.map_congr_left fun x hx => if_neg (ne_bslash (h x hx))

theorem forward_append (a b : Str) : forward (a ++ b) = forward a ++ forward b := List.map_append

theorem forward_bslash (w : Str) : forward (bslash :: w) = slash :: forward w := rfl

theorem forward_spell (hds : ∀ d ∈ ds, ∀ x ∈ d, isSlash x = false) :
    forward (spell bslash ds) = spell slash ds := by
  induction ds with
  | nil => rfl
  | cons d ds ih =>
    rw [spell_cons, spell_cons, forward_bslash, forward_append, forward_name (hds d (by simp)),
      ih fun e he => hds e (by simp [he])]

theorem forward_below (hds : ∀ d ∈ ds, ∀ x ∈ d, isSlash x = false) :
    forward (belowVol bslash ds trailing) = belowVol slash ds trailing := by
  rw [belowVol, forward_append, forward_spell hds]
  cases trailing <;> rfl

theorem belowVol_eq (sep : UInt16) (h : ds ≠ [] ∨ trailing = true) :
    ∃ y, belowVol sep ds trailing = sep :: y := by
  cases ds with
  | cons d ds => exact ⟨_, rfl⟩
  | nil =>
    have ht : trailing = true := h.resolve_left (by simp)
    exact ⟨[], by simp [belowVol, spell, ht]⟩

theorem below_belowVol {sep : UInt16} (hsep : isSlash sep = true) :
    Below (belowVol sep ds trailing) := by
  cases ds with
  | cons d ds => exact below_cons hsep _
  | nil =>
    cases trailing with
    | false => simp [Below, belowVol, spell]
    | true => exact below_cons hsep _

theorem ntPath_drive (f : Form) (c : UInt16) :
    ntPath f (.drive c) ds trailing =
      (if f = .long then longMark else []) ++ c :: colon :: belowVol bslash ds trailing := by
  cases f <;> simp [ntPath]

theorem ntPath_share (f : Form) (server name : Str) :
    ntPath f (.share server name) ds trailing =
      (if f = .long then longMark ++ uncMark else [bslash, bslash]) ++
        (server ++ bslash :: (name ++ belowVol bslash ds trailing)) := by
  cases f <;> simp [ntPath]

theorem ne_of_alpha {c d : UInt16} (hc : isAlpha c.toNat = true) (hd : isAlpha d.toNat = false) :
    c ≠ d := by
  rintro rfl
  rw [hc] at hd
  cases hd

/-- A drive path loses its prefix either way. -/
theorem strip_drive {c : UInt16} (hc : isAlpha c.toNat = true) (f : Form) {y : Str} :
    stripDrive ((if f = .long then longMark else []) ++ c :: colon :: bslash :: y) =
        c :: colon :: bslash :: y ∧
      stripLong ((if f = .long then longMark else []) ++ c :: colon :: bslash :: y) =
        c :: colon :: bslash :: y := by
  have hne := ne_of_alpha hc (d := bslash) (by decide)
  cases f with
  | plain =>
    constructor
    · rw [stripDrive, if_neg]
      · rfl
      · rintro ⟨h, -⟩
        exact hne (List.cons.inj h).1
    · rw [stripLong, if_neg, if_neg]
      · rfl
      · rintro ⟨h, -⟩
        exact hne (List.cons.inj h).1
      · intro h
        exact hne (List.cons.inj h).1
  | long =>
    constructor
    · rw [stripDrive, if_pos]
      · rfl
      · exact ⟨rfl, hc, rfl, rfl⟩
    · rw [stripLong, if_neg, if_pos]
      · rfl
      · exact ⟨rfl, hc, rfl⟩
      · intro h
        have := congrArg (fun l => l.getD 5 0) h
        exact absurd this (by simp [longMark, uncMark, colon])

theorem driveFirst_drive {c : UInt16} (hc : isAlpha c.toNat = true) (y : Str) :
    driveFirst (c :: colon :: bslash :: y) = bslash :: c :: bslash :: y := by
  simp [driveFirst, alphaAt, hc]

/-- A share path is left as it is, but for its prefix in `nt_to_unix`. -/
theorem strip_share {server w : Str} (hs : IsServer server) :
    stripDrive (bslash :: bslash :: (server ++ w)) = bslash :: bslash :: (server ++ w) ∧
      stripLong (bslash :: bslash :: (server ++ w)) = bslash :: bslash :: (server ++ w) ∧
      stripLong (longMark ++ uncMark ++ (server ++ w)) = bslash :: bslash :: (server ++ w) := by
  cases server with
  | nil => exact absurd rfl hs.proper.ne_nil
  | cons c s =>
    have hc : c ≠ quest := hs.ne_quest
    have h4 : (bslash :: bslash :: (c :: s ++ w)).take 4 ≠ longMark := by
      intro h
      exact hc (List.cons.inj (List.cons.inj (List.cons.inj h).2).2).1
    have h8 : (bslash :: bslash :: (c :: s ++ w)).take 8 ≠ longMark ++ uncMark := by
      intro h
      exact hc (List.cons.inj (List.cons.inj (List.cons.inj h).2).2).1
    refine ⟨?_, ?_, ?_⟩
    · rw [stripDrive, if_neg fun h => h4 h.1]
    · rw [stripLong, if_neg h8, if_neg fun h => h4 h.1]
    · have h : (longMark ++ uncMark ++ (c :: s ++ w)).take 8 = longMark ++ uncMark := rfl
      rw [stripLong, if_pos h]
      rfl

theorem driveFirst_share (w : Str) : driveFirst (bslash :: w) = bslash :: w := by
  have : alphaAt (bslash :: w) 0 = false := by
    show isAlpha bslash.toNat = false
    decide
  simp [driveFirst, this]

theorem forward_share {server name : Str} (hs : ∀ x ∈ server, isSlash x = false)
    (hn : ∀ x ∈ name, isSlash x = false) (hds : ∀ d ∈ ds, ∀ x ∈ d, isSlash x = false) :
    forward (server ++ bslash :: (name ++ belowVol bslash ds trailing)) =
      server ++ slash :: (name ++ belowVol slash ds trailing) := by
  rw [forward_append, forward_name hs, forward_bslash, forward_append, forward_name hn,
    forward_below hds]

/-! ## The spelling each gives -/

theorem width8_ascii {s : Str} (h : ∀ x ∈ s, x < 0x80) : width8 s = s.length := by
  induction s with
  | nil => rfl
  | cons c s ih =>
    have hc : unitWidth c = 1 := if_pos (h c (by simp))
    have := ih fun x hx => h x (by simp [hx])
    simp only [width8, List.map_cons, List.sum_cons, List.length_cons] at this ⊢
    omega

theorem take8_ascii {n : Nat} {s : Str} (h : ∀ x ∈ s, x < 0x80) (hn : s.length ≤ n) :
    take8 n s = s := by
  induction s generalizing n with
  | nil => rfl
  | cons c s ih =>
    have hc : unitWidth c = 1 := if_pos (h c (by simp))
    simp only [List.length_cons] at hn
    rw [take8, hc, if_pos (by omega), ih (fun x hx => h x (by simp [hx])) (by omega)]

theorem ascii_below {sep : UInt16} (hsep : sep < 0x80) (hds : ∀ d ∈ ds, ∀ x ∈ d, x < 0x80) :
    ∀ x ∈ belowVol sep ds trailing, x < 0x80 := by
  intro x hx
  rcases List.mem_append.mp hx with hx | hx
  · obtain ⟨d, hd, hx⟩ := List.mem_flatMap.mp hx
    rcases List.mem_cons.mp hx with rfl | hx
    · exact hsep
    · exact hds d hd x hx
  · cases trailing with
    | false => cases hx
    | true =>
      rw [List.mem_singleton.mp hx]
      exact hsep

theorem width8_forward (s : Str) : width8 (forward s) = width8 s := by
  induction s with
  | nil => rfl
  | cons c s ih =>
    have hc : unitWidth (if c = bslash then slash else c) = unitWidth c := by
      split
      · rename_i h
        rw [h]
        decide
      · rfl
    simp only [forward, width8, List.map_cons, List.sum_cons] at ih ⊢
    rw [hc, ih]

/-- What a speller has to be given: an ASCII path and its ASCII spelling, both in
the room there is. -/
structure Fits (env : Env) (p u : Str) (size : Nat) : Prop where
  ne_nil : p ≠ []
  ascii : ∀ x ∈ p, x < 0x80
  ascii_unix : ∀ x ∈ u, x < 0x80
  short : p.length < env.pathMax - 1
  room : u.length < size

theorem Env.getcwdNt_eq (env : Env) {usRoot p u : Str} (roots : Roots) {size : Nat}
    (h : Fits env p u size) (hu : forward (driveFirst (stripDrive p)) = u)
    (hout : underRoot usRoot u = none) : (env.getcwdNt usRoot roots p size).2 = .ok u := by
  have hshort := h.short
  have hroom := h.room
  have hlong : ¬ (p.length ≥ env.pathMax ∨ width8 p ≥ env.pathMax) := by
    rw [width8_ascii h.ascii]
    omega
  have hsize : ¬ width8 (driveFirst (stripDrive p)) ≥ size := by
    rw [← width8_forward, hu, width8_ascii h.ascii_unix]
    omega
  rw [getcwdNt, if_neg h.ne_nil, if_neg hlong]
  simp only [if_neg hsize, hu, uncCwd, hout]

theorem Env.ntToUnix_eq (env : Env) {p u : Str} {outsz : Nat} (h : Fits env p u outsz)
    (hu : forward (driveFirst (stripLong p)) = u) : env.ntToUnix p outsz = u := by
  have hshort := h.short
  have hroom := h.room
  rw [ntToUnix, if_neg, hu, take8_ascii h.ascii_unix (by omega)]
  rw [width8_ascii h.ascii]
  omega

theorem fileText_eq {w : Str} (hpos : w.length ≠ 0) (hlen : w.length < 512)
    (hascii : ∀ x ∈ w, x < 0x80) :
    fileText w = .path (if (forward (w.drop (fdSkip w))).length ≥ 2 ∧
        (forward (w.drop (fdSkip w))).getD 1 0 = colon then
      slash :: (forward (w.drop (fdSkip w))).getD 0 0 :: (forward (w.drop (fdSkip w))).drop 2
      else forward (w.drop (fdSkip w))) := by
  have htake : (w.drop (fdSkip w)).take 511 = w.drop (fdSkip w) := by
    apply List.take_of_length_le
    rw [List.length_drop]
    omega
  have hmap : ((w.drop (fdSkip w)).map fun c =>
      if c = bslash then slash else if c < 128 then c else 0x5F) = forward (w.drop (fdSkip w)) := by
    apply List.map_congr_left
    intro c hc
    have : c < 128 := hascii c (List.mem_of_mem_drop hc)
    simp [this]
  rw [fileText, if_pos ⟨hpos, hlen⟩]
  simp only [htake, hmap]
  split
  · rfl
  · rfl

theorem fdSkip_drive {c : UInt16} (hc : isAlpha c.toNat = true) (f : Form) (y : Str) :
    ((if f = .long then longMark else []) ++ c :: colon :: y).drop
      (fdSkip ((if f = .long then longMark else []) ++ c :: colon :: y)) = c :: colon :: y := by
  have hne := ne_of_alpha hc (d := bslash) (by decide)
  cases f with
  | plain =>
    have : fdSkip (c :: colon :: y) = 0 := by
      rw [fdSkip, if_neg]
      rintro ⟨-, h⟩
      exact hne (List.cons.inj h).1
    show (c :: colon :: y).drop (fdSkip (c :: colon :: y)) = _
    rw [this]
    rfl
  | long =>
    have : fdSkip (longMark ++ c :: colon :: y) = 4 := by
      rw [fdSkip, if_pos, if_neg]
      · rintro ⟨-, h⟩
        have h2 := (List.cons.inj (List.cons.inj h).2).1
        exact absurd h2 (by decide)
      · exact ⟨by simp [longMark], rfl⟩
    show (longMark ++ c :: colon :: y).drop (fdSkip (longMark ++ c :: colon :: y)) = _
    rw [this]
    rfl

/-- A share keeps its two separators, but behind `\\?\UNC` only one. -/
theorem fdSkip_share {server w : Str} (hs : IsServer server) :
    fdSkip (bslash :: bslash :: (server ++ w)) = 0 ∧
      fdSkip (longMark ++ uncMark ++ (server ++ w)) = 7 := by
  cases server with
  | nil => exact absurd rfl hs.proper.ne_nil
  | cons c s =>
    have hc : c ≠ quest := hs.ne_quest
    constructor
    · rw [fdSkip, if_neg]
      rintro ⟨-, h⟩
      exact hc (List.cons.inj (List.cons.inj (List.cons.inj h).2).2).1
    · rw [fdSkip, if_pos, if_pos]
      · exact ⟨by simp [longMark, uncMark], rfl⟩
      · exact ⟨by simp [longMark, uncMark], rfl⟩

/-- **A drive path** is spelled alike by all three, in either form. -/
theorem spellings_drive (f : Form) {c : UInt16} (hc : isAlpha c.toNat = true)
    (hds : ∀ d ∈ ds, ∀ x ∈ d, isSlash x = false) (h : ds ≠ [] ∨ trailing = true) :
    forward (driveFirst (stripDrive (ntPath f (.drive c) ds trailing))) =
        unixPath (.drive c) ds trailing ∧
      forward (driveFirst (stripLong (ntPath f (.drive c) ds trailing))) =
        unixPath (.drive c) ds trailing ∧
      forward ((ntPath f (.drive c) ds trailing).drop (fdSkip (ntPath f (.drive c) ds trailing))) =
        c :: colon :: belowVol slash ds trailing := by
  have hcs : c ≠ bslash := ne_of_alpha hc (by decide)
  have hfirst : ∀ w : Str, forward (c :: w) = c :: forward w := by
    intro w
    simp [forward, hcs]
  rw [ntPath_drive, fdSkip_drive hc f]
  obtain ⟨y, hy⟩ : ∃ y, belowVol bslash ds trailing = bslash :: y := belowVol_eq bslash h
  have hb : forward (belowVol bslash ds trailing) = belowVol slash ds trailing := forward_below hds
  rw [hy, forward_bslash] at hb
  obtain ⟨h₁, h₂⟩ := strip_drive hc f (y := y)
  refine ⟨?_, ?_, ?_⟩
  · rw [hy, h₁, driveFirst_drive hc, forward_bslash, hfirst, forward_bslash, hb]
    rfl
  · rw [hy, h₂, driveFirst_drive hc, forward_bslash, hfirst, forward_bslash, hb]
    rfl
  · rw [hy, hfirst, ← hb]
    rfl

/-- **A share path** is spelled alike by all three only without the prefix. -/
theorem spellings_share {server name : Str} (hs : IsServer server) (hn : Proper name)
    (hds : ∀ d ∈ ds, ∀ x ∈ d, isSlash x = false) :
    forward (driveFirst (stripDrive (ntPath .plain (.share server name) ds trailing))) =
        unixPath (.share server name) ds trailing ∧
      (∀ f, forward (driveFirst (stripLong (ntPath f (.share server name) ds trailing))) =
        unixPath (.share server name) ds trailing) ∧
      forward ((ntPath .plain (.share server name) ds trailing).drop
        (fdSkip (ntPath .plain (.share server name) ds trailing))) =
          unixPath (.share server name) ds trailing ∧
      forward ((ntPath .long (.share server name) ds trailing).drop
        (fdSkip (ntPath .long (.share server name) ds trailing))) =
          (unixPath (.share server name) ds trailing).tail := by
  have hplain : ntPath .plain (.share server name) ds trailing =
      bslash :: bslash :: (server ++ bslash :: (name ++ belowVol bslash ds trailing)) :=
    ntPath_share .plain server name
  have hlong : ntPath .long (.share server name) ds trailing =
      longMark ++ uncMark ++ (server ++ bslash :: (name ++ belowVol bslash ds trailing)) :=
    ntPath_share .long server name
  have hunix : unixPath (.share server name) ds trailing =
      slash :: slash :: (server ++ slash :: (name ++ belowVol slash ds trailing)) := by
    simp [unixPath]
  have hf : forward (server ++ bslash :: (name ++ belowVol bslash ds trailing)) =
      server ++ slash :: (name ++ belowVol slash ds trailing) :=
    forward_share hs.proper.noSlash hn.noSlash hds
  obtain ⟨h₁, h₂, h₃⟩ :=
    strip_share (w := bslash :: (name ++ belowVol bslash ds trailing)) hs
  obtain ⟨k₁, k₂⟩ := fdSkip_share (w := bslash :: (name ++ belowVol bslash ds trailing)) hs
  refine ⟨?_, ?_, ?_, ?_⟩
  · rw [hplain, h₁, driveFirst_share, forward_bslash, forward_bslash, hf, hunix]
  · intro f
    cases f with
    | plain => rw [hplain, h₂, driveFirst_share, forward_bslash, forward_bslash, hf, hunix]
    | long => rw [hlong, h₃, driveFirst_share, forward_bslash, forward_bslash, hf, hunix]
  · rw [hplain, k₁, List.drop_zero, forward_bslash, forward_bslash, hf, hunix]
  · have hdrop : ∀ t : Str, (longMark ++ uncMark ++ t).drop 7 = bslash :: t := fun _ => rfl
    rw [hlong, k₂, hdrop, forward_bslash, hf, hunix]
    rfl

/-! ## The way back -/

theorem Reads.of_below (hds : ∀ d ∈ ds, Proper d) :
    Reads (ds ++ (if trailing then [[]] else [])) ds := by
  cases trailing with
  | false => simpa using Reads.of_names hds
  | true => exact Reads.of_trailing hds

theorem not_mem_below {x sep : UInt16} (hsep : sep ≠ x) (hds : ∀ d ∈ ds, x ∉ d) :
    x ∉ belowVol sep ds trailing := by
  intro hx
  rcases List.mem_append.mp hx with hx | hx
  · obtain ⟨d, hd, hx⟩ := List.mem_flatMap.mp hx
    rcases List.mem_cons.mp hx with rfl | hx
    · exact hsep rfl
    · exact hds d hd hx
  · cases trailing with
    | false => cases hx
    | true => exact hsep (List.mem_singleton.mp hx).symm

theorem plain_of_ascii {w : Str} (h : ∀ x ∈ w, x < 0x80) : Plain w := by
  intro x hx hs
  have hx := h x hx
  have : x &&& 0xFF = x := by
    have : x.toNat < 128 := hx
    apply UInt16.toNat_inj.mp
    rw [UInt16.toNat_and]
    show x.toNat &&& 255 = x.toNat
    rw [Nat.and_two_pow_sub_one_eq_mod x.toNat 8]
    omega
  rwa [isSlash16, this] at hs

/-- A drive path in its unix spelling is converted to a path of the same file. -/
theorem mkntpath2_drive (env : Env) (roots : Roots) {c : UInt16}
    (hv : IsVol env.drives (.drive c)) (hds : ∀ d ∈ ds, IsNtName d)
    (h : ds ≠ [] ∨ trailing = true) (hlen : (unixPath (.drive c) ds trailing).length < 512) :
    ∃ out, (env.mkntpath2 roots (unixPath (.drive c) ds trailing)).2 = .ok out ∧
      ntFile out = some (.drive c, ds) := by
  have hproper : ∀ d ∈ ds, Proper d := fun d hd => (hds d hd).proper
  have hascii : ∀ x ∈ belowVol slash ds trailing, x < 0x80 :=
    ascii_below (by decide) fun d hd => (hds d hd).ascii
  have hcolon : colon ∉ belowVol slash ds trailing :=
    not_mem_below (by decide) fun d hd => (hds d hd).noColon
  have hback : bslash ∉ belowVol slash ds trailing := by
    refine not_mem_below (by decide) fun d hd hb => ?_
    have := (hds d hd).proper.noSlash bslash hb
    exact absurd this (by decide)
  obtain ⟨w, hw⟩ : ∃ w, belowVol slash ds trailing = slash :: w := belowVol_eq slash h
  have hpath : unixPath (.drive c) ds trailing = slash :: c :: slash :: w := by
    rw [unixPath, hw]
    rfl
  rw [hw] at hascii hcolon hback
  have hplain : Plain w := plain_of_ascii fun x hx => hascii x (by simp [hx])
  have hmem : ∀ x, isAlpha x.toNat = false → x ≠ slash → x ∉ slash :: w →
      x ∉ slash :: c :: slash :: w := by
    intro x hx hs hw hin
    rcases List.mem_cons.mp hin with rfl | hin
    · exact hs rfl
    · rcases List.mem_cons.mp hin with rfl | hin
      · exact ne_of_alpha hv.1 hx rfl
      · exact hw hin
  have hm : noMarks none (slash :: c :: slash :: w) = true :=
    noMarks_plain (hmem colon (by decide) (by decide) hcolon)
      (hmem bslash (by decide) (by decide) hback)
  have hshort : ¬ w.length ≥ min 32767 env.pathMax - 7 - 1 := by
    have := env.pathMax_ge
    rw [hpath] at hlen
    simp only [List.length_cons] at hlen
    omega
  have hreads : Reads (components (normntpath w)) ds := by
    cases ds with
    | nil =>
      have ht : trailing = true := h.resolve_left (by simp)
      have hnil : w = [] := by simpa [belowVol, spell, ht] using hw.symm
      rw [hnil]
      exact Reads.of_trailing hproper
    | cons d ds =>
      have hw' : w = d ++ belowVol slash ds trailing := by
        have : belowVol slash (d :: ds) trailing = slash :: (d ++ belowVol slash ds trailing) := by
          simp [belowVol, spell]
        rw [this] at hw
        exact (List.cons.inj hw).2.symm
      have hno : ∀ e ∈ ds, ∀ x ∈ e, isSlash x = false := fun e he => (hproper e (by simp [he])).noSlash
      have hcomp : components w = d :: ds ++ (if trailing then [[]] else []) := by
        rw [hw', components_below isSlash_slash (hproper d (by simp)).noSlash hno]
      rw [normntpath_names hplain hproper hcomp,
        components_below isSlash_bslash (hproper d (by simp)).noSlash hno]
      exact Reads.of_below hproper
  rw [hpath, Env.mkntpath2, env.mkntpath2From_drive 2 roots hv.1 hv.2 hm, if_neg hshort]
  exact ⟨_, rfl, ntFile_downgrade_drive 244 hv.1 hreads⟩

theorem spell_eq_nil (sep : UInt16) : spell sep ds = [] ↔ ds = [] := by
  cases ds <;> simp [spell]

theorem getLast_below {sep : UInt16} (hsep : isSlash sep = true) (hds : ∀ d ∈ ds, Proper d) (hne : ds ≠ []) :
    (belowVol sep ds trailing).getLast?.any isSlash = trailing := by
  cases trailing with
  | true => simp [belowVol, hsep]
  | false =>
    obtain ⟨es, e, rfl⟩ := (List.eq_nil_or_concat' ds).resolve_left hne
    have he := hds e (by simp)
    have hspell : belowVol sep (es ++ [e]) false = spell sep es ++ sep :: e := by
      simp [belowVol, spell]
    obtain ⟨x, hx⟩ : ∃ x, e.getLast? = some x := ⟨_, List.getLast?_eq_some_getLast he.ne_nil⟩
    have hlast : (spell sep es ++ sep :: e).getLast? = some x := by
      rw [List.getLast?_append, List.getLast?_cons, hx]
      rfl
    rw [hspell, hlast]
    exact he.noSlash x (List.mem_of_getLast? hx)

/-- Names below a share are kept, and nothing climbs out. -/
theorem normuncrest_names {sep : UInt16} (hsep : isSlash sep = true) (hds : ∀ d ∈ ds, Proper d) :
    normuncrest (belowVol sep ds trailing) =
      (belowVol bslash ds (trailing && !ds.isEmpty), false) := by
  have hcomp : components (belowVol sep ds trailing) =
      [] :: ds ++ (if trailing then [[]] else []) :=
    components_below (p := []) hsep (by simp) fun d hd => (hds d hd).noSlash
  have hnames : ds.map move = ds.map Walk.Move.name :=
    List.map_congr_left fun d hd => (hds d hd).move
  have hmoves : (components (belowVol sep ds trailing)).map move =
      .stay :: (ds.map Walk.Move.name ++ (if trailing then [.stay] else [])) := by
    rw [hcomp]
    cases trailing <;> simp [hnames, move]
  have hclamp : Walk.clamp [] ((components (belowVol sep ds trailing)).map move) = ds.reverse := by
    rw [hmoves, Walk.clamp, Walk.clamp_append, Walk.clamp_names, List.append_nil]
    cases trailing <;> rfl
  have hclimbs : Walk.climbs [] ((components (belowVol sep ds trailing)).map move) = false := by
    rw [hmoves, Walk.climbs, Walk.climbs_names]
    cases trailing <;> rfl
  have hbody : (ds.reverse.reverse.flatMap fun c => bslash :: c) = spell bslash ds := by
    rw [List.reverse_reverse]
    rfl
  simp only [normuncrest, uncLoop_eq, hclamp, hclimbs, Bool.or_false, hbody]
  cases ds with
  | nil => simp [belowVol, spell]
  | cons d ds =>
    rw [getLast_below hsep hds (by simp)]
    cases trailing <;> simp [belowVol, spell]

theorem plain_share_root {server name : Str} (hs : IsNtName server) (hn : IsNtName name)
    (hds : ∀ d ∈ ds, IsNtName d) : Plain (shareRoot slash server name ++ belowVol slash ds trailing) := by
  apply plain_of_ascii
  intro x hx
  simp only [shareRoot, List.append_assoc, List.cons_append, List.mem_append, List.mem_cons] at hx
  rcases hx with hx | rfl | hx | hx
  · exact hs.ascii x hx
  · decide
  · exact hn.ascii x hx
  · exact ascii_below (by decide) (fun d hd => (hds d hd).ascii) x hx

theorem noMarks_share {server name : Str} (hs : IsNtName server) (hn : IsNtName name)
    (hds : ∀ d ∈ ds, IsNtName d) :
    noMarks none (sharePath slash server name (belowVol slash ds trailing)) = true := by
  have hback : ∀ p, IsNtName p → bslash ∉ p := by
    intro p hp hb
    exact absurd (hp.proper.noSlash bslash hb) (by decide)
  have hmem : ∀ x, x ≠ slash → x ∉ server → x ∉ name → (∀ d ∈ ds, x ∉ d) →
      x ∉ sharePath slash server name (belowVol slash ds trailing) := by
    intro x hx h₁ h₂ h₃
    have := @not_mem_below ds trailing x slash hx.symm h₃
    simp [sharePath, shareRoot, hx, h₁, h₂, this]
  apply noMarks_plain
  · exact hmem colon (by decide) hs.noColon hn.noColon fun d hd => (hds d hd).noColon
  · exact hmem bslash (by decide) (hback server hs) (hback name hn) fun d hd => hback d (hds d hd)

/-- A share path in its unix spelling is converted to a path of the same file. -/
theorem mkntpath2_share (env : Env) (roots : Roots) {server name : Str}
    (hv : IsVol env.drives (.share server name)) (hds : ∀ d ∈ ds, IsNtName d)
    (hlen : (unixPath (.share server name) ds trailing).length < 512) :
    ∃ out, (env.mkntpath2 roots (unixPath (.share server name) ds trailing)).2 = .ok out ∧
      ntFile out = some (.share server name, ds) := by
  obtain ⟨hsn, hs, hnn⟩ := hv
  have hn := hnn.proper
  have hproper : ∀ d ∈ ds, Proper d := fun d hd => (hds d hd).proper
  have hname : isName name = true := by
    apply hn.isName
    rintro rfl
    exact hnn.noQuest (by simp)
  have hpath : unixPath (.share server name) ds trailing =
      sharePath slash server name (belowVol slash ds trailing) := by
    simp [unixPath, sharePath, shareRoot]
  have hm := @noMarks_share ds trailing server name hsn hnn hds
  have hbelow : Below (belowVol slash ds trailing) := below_belowVol isSlash_slash
  have hpm := env.pathMax_ge
  rw [hpath] at hlen ⊢
  have hroot : (sharePath slash server name (belowVol slash ds trailing)).length =
      2 + (shareRoot slash server name).length + (belowVol slash ds trailing).length := by
    simp [sharePath]
    omega
  by_cases hw : width8 (shareRoot slash server name) < uncRootLenMax
  · have hshort : ¬ (belowVol slash ds trailing).length ≥
        min 32767 env.pathMax - 8 - (shareRoot slash server name).length - 1 := by omega
    rw [Env.mkntpath2, env.mkntpath2From_share 2 roots isSlash_slash hs hn hbelow hw hm, if_neg hshort,
      normuncrest_names isSlash_slash hproper, if_neg (by simp)]
    refine ⟨_, rfl, ?_⟩
    have happ : sharePre server name ++ belowVol bslash ds (trailing && !ds.isEmpty) =
        longMark ++ uncMark ++
          (server ++ bslash :: (name ++ belowVol bslash ds (trailing && !ds.isEmpty))) := by
      simp [sharePre]
    rw [happ]
    have hcomp : components
        (server ++ bslash :: (name ++ belowVol bslash ds (trailing && !ds.isEmpty))) =
          server :: name :: (ds ++ (if (trailing && !ds.isEmpty) = true then [[]] else [])) := by
      rw [components_cons hs.proper.noSlash isSlash_bslash, components_below isSlash_bslash
        hn.noSlash fun d hd => (hproper d hd).noSlash]
      rfl
    exact ntFile_downgrade_share 244 hs hname hcomp (Reads.of_below hproper)
  · have hshort : ¬ (shareRoot slash server name ++ belowVol slash ds trailing).length ≥
        min 32767 env.pathMax - 8 - 1 := by
      rw [List.length_append]
      omega
    have hcomp : components (shareRoot slash server name ++ belowVol slash ds trailing) =
        (server :: name :: ds) ++ (if trailing then [[]] else []) := by
      rw [shareRoot, List.append_assoc, List.cons_append, components_cons hs.proper.noSlash
        isSlash_slash, components_below isSlash_slash hn.noSlash fun d hd => (hproper d hd).noSlash]
      rfl
    have hall : ∀ p ∈ server :: name :: ds, Proper p := by
      simpa using ⟨hs.proper, hn, hproper⟩
    have hno : ∀ d ∈ name :: ds, ∀ x ∈ d, isSlash x = false := fun d hd => (hall d (by simp [hd])).noSlash
    rw [Env.mkntpath2, env.mkntpath2From_share_long 2 roots isSlash_slash hs hn hbelow hw hm,
      if_neg hshort, normntpath_names (plain_share_root hsn hnn hds) hall hcomp]
    refine ⟨_, rfl, ?_⟩
    have hout : components (server ++ belowVol bslash (name :: ds) trailing) =
        server :: name :: (ds ++ (if trailing then [[]] else [])) := by
      rw [components_below isSlash_bslash hs.proper.noSlash hno]
      rfl
    exact ntFile_downgrade_share 244 hs hname hout (Reads.of_below hproper)

/-! ## Agreement -/

/-- The three spellings of a path are one, and it is converted to a path of the file
whatever shares are known by then. -/
def Agree (env : Env) (usRoot : Str) (roots : Roots) (p : Str) (size outsz : Nat) (v : Vol)
    (ds : List Str) : Prop :=
  ∃ u, (env.getcwdNt usRoot roots p size).2 = .ok u ∧ env.ntToUnix p outsz = u ∧
    fileText p = .path u ∧
    ∀ known, ∃ out, (env.mkntpath2 known u).2 = .ok out ∧ ntFile out = some (v, ds)

theorem IsVol.ascii {drives : BitVec 32} (hv : IsVol drives v) (hds : ∀ d ∈ ds, IsNtName d) :
    (∀ f, ∀ x ∈ ntPath f v ds trailing, x < 0x80) ∧ ∀ x ∈ unixPath v ds trailing, x < 0x80 := by
  have hb : ∀ x ∈ belowVol bslash ds trailing, x < 0x80 :=
    ascii_below (by decide) fun d hd => (hds d hd).ascii
  have hs : ∀ x ∈ belowVol slash ds trailing, x < 0x80 :=
    ascii_below (by decide) fun d hd => (hds d hd).ascii
  have happ : ∀ {a b : Str}, (∀ x ∈ a, x < 0x80) → (∀ x ∈ b, x < 0x80) → ∀ x ∈ a ++ b, x < 0x80 := by
    intro a b ha hb x hx
    rcases List.mem_append.mp hx with hx | hx
    · exact ha x hx
    · exact hb x hx
  have hlong : ∀ x ∈ longMark, x < 0x80 := by decide
  have hunc : ∀ x ∈ longMark ++ uncMark, x < 0x80 := by decide
  have hmarks : ∀ sep : UInt16, sep < 0x80 → ∀ x ∈ [sep, sep], x < 0x80 := by simp
  cases v with
  | drive c =>
    have hc : c < 0x80 := by
      have := hv.1
      simp only [isAlpha, Bool.or_eq_true, Bool.and_eq_true, decide_eq_true_eq] at this
      show c.toNat < 128
      omega
    have hcc : ∀ x ∈ [c, colon], x < 0x80 := by simpa using ⟨hc, by decide⟩
    refine ⟨fun f => ?_, ?_⟩
    · cases f with
      | plain => exact happ hcc hb
      | long => exact happ (happ hlong hcc) hb
    · have : ∀ x ∈ [slash, c], x < 0x80 := by simpa using ⟨by decide, hc⟩
      exact happ this hs
  | share server name =>
    have hroot : ∀ sep : UInt16, sep < 0x80 → ∀ x ∈ server ++ sep :: name, x < 0x80 := by
      intro sep hsep
      refine happ hv.1.ascii fun x hx => ?_
      rcases List.mem_cons.mp hx with rfl | hx
      · exact hsep
      · exact hv.2.2.ascii x hx
    refine ⟨fun f => ?_, ?_⟩
    · cases f with
      | plain => exact happ (happ (hmarks bslash (by decide)) (hroot bslash (by decide))) hb
      | long => exact happ (happ hunc (hroot bslash (by decide))) hb
    · exact happ (happ (hmarks slash (by decide)) (hroot slash (by decide))) hs

theorem length_below (sep sep' : UInt16) :
    (belowVol sep ds trailing).length = (belowVol sep' ds trailing).length := by
  have hspell : (spell sep ds).length = (spell sep' ds).length := by
    simp [spell, List.length_flatMap]
  cases trailing <;> simp [belowVol, hspell]

theorem length_unixPath_le (f : Form) :
    (unixPath v ds trailing).length ≤ (ntPath f v ds trailing).length := by
  have hlen := @length_below ds trailing slash bslash
  cases v with
  | drive c =>
    rw [ntPath_drive]
    simp only [unixPath, List.length_append, List.length_cons, List.length_nil, hlen]
    omega
  | share server name =>
    rw [ntPath_share]
    have : 2 ≤ (if f = .long then longMark ++ uncMark else [bslash, bslash]).length := by
      cases f <;> decide
    simp only [unixPath, List.length_append, List.length_cons, hlen]
    omega

theorem ntPath_ne_nil (f : Form) : ntPath f v ds trailing ≠ [] := by
  cases v with
  | drive c =>
    rw [ntPath_drive]
    simp
  | share server name =>
    rw [ntPath_share]
    simp

/-- Where no speller is given up on, one spelling settles it. -/
theorem Agree.of_spellings {env : Env} {usRoot : Str} (roots : Roots) {f : Form} {size outsz : Nat}
    (hv : IsVol env.drives v) (hds : ∀ d ∈ ds, IsNtName d) (hroot : Rooted v ds trailing)
    (hout : underRoot usRoot (unixPath v ds trailing) = none)
    (hsize : (ntPath f v ds trailing).length < size) (houtsz : (ntPath f v ds trailing).length < outsz)
    (hlen : (ntPath f v ds trailing).length < 512)
    (h₁ : forward (driveFirst (stripDrive (ntPath f v ds trailing))) = unixPath v ds trailing)
    (h₂ : forward (driveFirst (stripLong (ntPath f v ds trailing))) = unixPath v ds trailing)
    (h₃ : fileText (ntPath f v ds trailing) = .path (unixPath v ds trailing)) :
    Agree env usRoot roots (ntPath f v ds trailing) size outsz v ds := by
  obtain ⟨hp, hu⟩ := @IsVol.ascii v ds trailing env.drives hv hds
  have hle := @length_unixPath_le v ds trailing f
  have hpm := env.pathMax_ge
  have hfits : ∀ n, (ntPath f v ds trailing).length < n →
      Fits env (ntPath f v ds trailing) (unixPath v ds trailing) n :=
    fun n hn => ⟨ntPath_ne_nil f, hp f, hu, by omega, by omega⟩
  refine ⟨unixPath v ds trailing, env.getcwdNt_eq roots (hfits size hsize) h₁ hout,
    env.ntToUnix_eq (hfits outsz houtsz) h₂, h₃, fun known => ?_⟩
  cases v with
  | drive c => exact mkntpath2_drive env known hv hds (hroot ⟨c, rfl⟩) (by omega)
  | share server name => exact mkntpath2_share env known hv hds (by omega)

/-- **The spellers agree** exactly off the `\\?\UNC\` form and below 512 units. -/
theorem spellers_agree_iff (env : Env) (usRoot : Str) (roots : Roots) (f : Form) (v : Vol)
    (ds : List Str) (trailing : Bool) (size outsz : Nat) (hv : IsVol env.drives v)
    (hds : ∀ d ∈ ds, IsNtName d) (hroot : Rooted v ds trailing)
    (hout : underRoot usRoot (unixPath v ds trailing) = none)
    (hsize : (ntPath f v ds trailing).length < size)
    (houtsz : (ntPath f v ds trailing).length < outsz) :
    Agree env usRoot roots (ntPath f v ds trailing) size outsz v ds ↔
      (f = .plain ∨ ∃ c, v = .drive c) ∧ (ntPath f v ds trailing).length < 512 := by
  have hno : ∀ d ∈ ds, ∀ x ∈ d, isSlash x = false := fun d hd => (hds d hd).proper.noSlash
  have hpos : (ntPath f v ds trailing).length ≠ 0 := by
    simpa using @ntPath_ne_nil v ds trailing f
  obtain ⟨hp, hu⟩ := @IsVol.ascii v ds trailing env.drives hv hds
  constructor
  · rintro ⟨u, -, hunix, htext, -⟩
    have hlen : (ntPath f v ds trailing).length < 512 := by
      by_contra h
      rw [fileText, if_neg fun hc => h hc.2] at htext
      cases htext
    refine ⟨?_, hlen⟩
    cases v with
    | drive c => exact Or.inr ⟨c, rfl⟩
    | share server name =>
      cases f with
      | plain => exact Or.inl rfl
      | long =>
        exfalso
        -- `nt_to_unix` writes two separators before the server, `file_text` one
        have hle := @length_unixPath_le (.share server name) ds trailing .long
        have hpm := env.pathMax_ge
        obtain ⟨-, h₂, -, h₄⟩ := @spellings_share ds trailing server name hv.2.1 hv.2.2.proper hno
        have hfits : Fits env (ntPath .long (.share server name) ds trailing)
            (unixPath (.share server name) ds trailing) outsz :=
          ⟨ntPath_ne_nil .long, hp .long, hu, by omega, by omega⟩
        have hcolon : (unixPath (.share server name) ds trailing).tail.getD 1 0 ≠ colon := by
          cases server with
          | nil => exact absurd rfl hv.1.proper.ne_nil
          | cons c server =>
            rintro (rfl : c = colon)
            exact hv.1.noColon (by simp)
        rw [fileText_eq hpos hlen (hp .long), h₄, if_neg fun hc => hcolon hc.2] at htext
        rw [env.ntToUnix_eq hfits (h₂ .long)] at hunix
        have := congrArg List.length (hunix.trans (FdText.path.inj htext).symm)
        simp [unixPath] at this
  · rintro ⟨hform, hlen⟩
    cases v with
    | drive c =>
      obtain ⟨h₁, h₂, h₃⟩ := spellings_drive f hv.1 hno (hroot ⟨c, rfl⟩)
      refine Agree.of_spellings roots hv hds hroot hout hsize houtsz hlen h₁ h₂ ?_
      rw [fileText_eq hpos hlen (hp f), h₃, if_pos ⟨by simp, rfl⟩]
      rfl
    | share server name =>
      have hf : f = .plain := by
        rcases hform with h | ⟨c, hc⟩
        · exact h
        · cases hc
      subst hf
      obtain ⟨h₁, h₂, h₃, -⟩ := @spellings_share ds trailing server name hv.2.1 hv.2.2.proper hno
      refine Agree.of_spellings roots hv hds hroot hout hsize houtsz hlen h₁ (h₂ .plain) ?_
      rw [fileText_eq hpos hlen (hp .plain), h₃, if_neg]
      rintro ⟨-, h⟩
      exact absurd h (by simp [unixPath, slash, colon])

end

/-- One drive, C, and no shares. -/
def Env.bare : Env where
  drives := 4#32
  cosmosDrive := 0x43
  tempPath := ascii ['C', ':', '\\', 't', '\\']
  pathMax := 1024
  procfs := fun _ => none
  uncRel := fun _ _ => none
  serverDir := fun _ => none
  pathMax_ge := by decide
  cosmosDrive_alpha := by decide
  procfs_none := fun _ _ => rfl

theorem spellers_agree_drive :
    Agree .bare [] [] (ascii ['\\', '\\', '?', '\\', 'C', ':', '\\', 'd', '\\', 'x']) 1024 512
      (.drive 0x43) [ascii ['d'], ascii ['x']] := by
  have hname : ∀ d ∈ [ascii ['d'], ascii ['x']], IsNtName d := by
    intro d hd
    simp only [List.mem_cons, List.not_mem_nil, or_false] at hd
    rcases hd with rfl | rfl
    · exact ⟨⟨by decide, by decide, by decide, by decide⟩, by decide, by decide, by decide⟩
    · exact ⟨⟨by decide, by decide, by decide, by decide⟩, by decide, by decide, by decide⟩
  exact (spellers_agree_iff .bare [] [] .long (.drive 0x43) [ascii ['d'], ascii ['x']] false 1024 512
    ⟨by decide, by decide⟩ hname (fun _ => Or.inl (by decide)) (by decide) (by decide)
    (by decide)).mpr ⟨Or.inr ⟨0x43, rfl⟩, by decide⟩

/-- `\\?\UNC\srv\d\x` loses a separator under /proc/self/fd. -/
theorem fd_link_drops_slash :
    ¬ Agree .bare [] []
      (ascii ['\\', '\\', '?', '\\', 'U', 'N', 'C', '\\', 's', 'r', 'v', '\\', 'd', '\\', 'x'])
      1024 512 (.share (ascii ['s', 'r', 'v']) (ascii ['d'])) [ascii ['x']] := by
  rintro ⟨u, -, hunix, htext, -⟩
  rw [← hunix] at htext
  exact absurd htext (by decide)

end ApeShim.Nt
