import ApeShim.Nt.Normalize

/-!
`__mkntpath2` of `shim/mkntpath.c`, the conversion of a unix path to one for NT,
with the shares it remembers. What it asks elsewhere (the emulated /proc, the
current directory, the server's share list, the drives, the temp directory) is an
environment. `ntFile` says which file a converted path names.
-/

namespace ApeShim.Nt
open Walk

def alphaAt (s : Str) (i : Nat) : Bool := isAlpha (s.getD i 0).toNat

def slashAt (s : Str) (i : Nat) : Bool := isSlash (s.getD i 0)

/-- `unc_roots`, each as "server/share". -/
abbrev Roots := List Str

structure Env where
  drives : BitVec 32
  /-- `__ape_shim_cosmos_drive` -/
  cosmosDrive : UInt16
  /-- `GetTempPath` -/
  tempPath : Str
  /-- `PATH_MAX` -/
  pathMax : Nat
  /-- `__ape_shim_procfs_rewrite` -/
  procfs : Str → Option Str
  /-- `__ape_shim_unc_rel` -/
  uncRel : Roots → Str → Option Str
  /-- `__ape_shim_unc_server_dir` -/
  serverDir : Str → Option Str
  pathMax_ge : 1024 ≤ pathMax
  cosmosDrive_alpha : isAlpha cosmosDrive.toNat = true
  /-- only paths under `/proc` and `/sys` are emulated -/
  procfs_none : ∀ s : Str, slashAt s 0 = false ∨ slashAt s 1 = true ∨ slashAt s 2 = true →
    procfs s = none

/-! ## The shares seen -/

/-- `UNC_ROOT_MAX` -/
def uncRootMax : Nat := 16

/-- `UNC_ROOT_LEN`, in bytes -/
def uncRootLenMax : Nat := 256

/-- `UncRootLen`. -/
def uncRootLen (p : Str) : Nat :=
  if p = [] ∨ slashAt p 0 = true ∨ p.getD 0 0 = quest ∨ p.getD 0 0 = dot then 0
  else
    let server := p.takeWhile fun c => !isSlash c
    let q := p.drop (server.length + 1)
    if q = [] ∨ slashAt q 0 = true then 0
    else
      let share := q.takeWhile fun c => !isSlash c
      if share = [dot] ∨ share = dotdot then 0
      else
        let i := server.length + 1 + share.length
        if width8 (p.take i) < uncRootLenMax then i else 0

def lower16 (c : UInt16) : Nat := lower c.toNat

/-- `UncRootEquals`. -/
def uncRootEquals (root p : Str) (n : Nat) : Bool :=
  root.length = n &&
    (root.zip (p.take n)).all fun (a, b) => (isSlash a && isSlash b) || lower16 a = lower16 b

def uncRootKnown (roots : Roots) (p : Str) (n : Nat) : Bool :=
  roots.any fun r => uncRootEquals r p n

/-- `__ape_shim_unc_note`. -/
def uncNote (roots : Roots) (path : Str) : Roots :=
  if slashAt path 0 && slashAt path 1 then
    let p := path.drop 2
    let n := uncRootLen p
    if n = 0 ∨ uncRootKnown roots p n = true then roots
    else if roots.length < uncRootMax then roots ++ [p.take n]
    else roots
  else roots

/-- `UncServerKnown`. -/
def uncServerKnown (roots : Roots) (p : Str) : Bool :=
  roots.any fun r =>
    r.length > p.length && (r.zip p).all (fun (a, b) => lower16 a = lower16 b) &&
      isSlash (r.getD p.length 0)

/-- `IsCollapsedUnc`. -/
def isCollapsedUnc (roots : Roots) (path : Str) : Bool :=
  if slashAt path 0 = false ∨ slashAt path 1 = true then false
  else if alphaAt path 1 = true ∧ (slashAt path 2 = true ∨ path.length = 2) then false
  else if roots = [] then false
  else
    let p := path.drop 1
    let n := uncRootLen p
    if n ≠ 0 then uncRootKnown roots p n
    else
      let name := p.takeWhile fun c => !isSlash c
      if (p.drop name.length).length ≤ 1 then uncServerKnown roots name else false

/-! ## The conversion -/

/-- "X:" and a separator. -/
def driveMark (s : Str) : Bool := alphaAt s 0 && s.getD 1 0 = colon && slashAt s 2

/-- A "\\" pair that starts a share. -/
def pairMark (s : Str) : Bool := s.getD 0 0 = bslash && s.getD 1 0 = bslash && !slashAt s 2

/-- An absolute win32 segment starts here, behind this character. -/
def markAt (prev : Option UInt16) (s : Str) : Bool :=
  prev.all isSlash && (driveMark s || (prev = some slash && pairMark s))

/-- The loop for the last absolute segment. -/
def rerootLoop : Option UInt16 → Str → Str → Str
  | _, best, [] => best
  | prev, best, c :: rest =>
      rerootLoop (some c) (if markAt prev (c :: rest) then c :: rest else best) rest

def reroot (path : Str) : Str := rerootLoop none path path

def isTmp (q : Str) : Bool :=
  slashAt q 0 && q.getD 1 0 = 0x74 && q.getD 2 0 = 0x6D && q.getD 3 0 = 0x70 &&
    (slashAt q 4 || q.length = 4)

/-- `\\?\` -/
def longMark : Str := [bslash, bslash, quest, bslash]

/-- `UNC\` -/
def uncMark : Str := [0x55, 0x4E, 0x43, bslash]

inductive NtErr
  | enametoolong | enoent | winerr
  deriving DecidableEq, Repr

/-- What is written before the normalized rest: the prefix, the rest, the room for
it, and "server/share" where the prefix ends with one. -/
structure Head where
  pre : Str
  rest : Str
  room : Nat
  share : Option Str
  deriving DecidableEq

/-- `\\?\X:\`. -/
def drivePre (c : UInt16) : Str := longMark ++ [c, colon, bslash]

def Env.head (env : Env) (q : Str) : Except NtErr Head :=
  let z := min 32767 env.pathMax
  if slashAt q 0 && alphaAt q 1 && slashAt q 2 && driveExists env.drives (q.getD 1 0).toNat then
    .ok ⟨drivePre (q.getD 1 0), q.drop 3, z - 7, none⟩
  else if slashAt q 0 && alphaAt q 1 && q.length = 2 &&
      driveExists env.drives (q.getD 1 0).toNat then
    .ok ⟨drivePre (q.getD 1 0), q.drop 2, z - 7, none⟩
  else if driveMark q then .ok ⟨drivePre (q.getD 0 0), q.drop 3, z - 7, none⟩
  else if slashAt q 0 && slashAt q 1 && q.getD 2 0 = quest && slashAt q 3 then .ok ⟨[], q, z, none⟩
  else if slashAt q 0 && slashAt q 1 && q.length > 2 && !slashAt q 2 && q.getD 2 0 ≠ quest &&
      q.getD 2 0 ≠ dot then
    let q := q.drop 2
    let n := uncRootLen q
    let root := q.take n
    if n = 0 then .ok ⟨longMark ++ uncMark, q, z - 8, none⟩
    else if n ≥ z - 8 - 1 then .error .enametoolong
    else
      .ok ⟨longMark ++ uncMark ++ root.map (fun c => if c = slash then bslash else c), q.drop n,
        z - 8 - n, some root⟩
  else if slashAt q 0 && !isTmp q then .ok ⟨drivePre env.cosmosDrive, q.drop 1, z - 7, none⟩
  else .ok ⟨[], q, min 260 env.pathMax, none⟩

/-- Removal of the `\\?\` prefix below a length limit. -/
def downgrade (limit : Nat) (s : Str) : Str :=
  if s.length > 4 ∧ s.take 4 = longMark then
    if s.length > 8 ∧ (s.drop 4).take 4 = uncMark then
      if s.length - 6 < limit then bslash :: bslash :: s.drop 8 else s
    else if s.length < limit then s.drop 4
    else s
  else s

/-- From the head on. `again` converts the path a climb out of a share comes to. -/
def Env.finish (env : Env) (again : Str → Except NtErr Str) (q : Str) : Except NtErr Str := do
  let h ← env.head q
  if h.pre = [] ∧ isTmp h.rest = true ∧ h.rest.length = 4 then return env.tempPath
  let tmp := h.pre = [] ∧ isTmp h.rest = true
  let pre := if tmp then env.tempPath else h.pre
  let rest := if tmp then h.rest.drop 5 else h.rest
  let room := if tmp then h.room - env.tempPath.length else h.room
  if rest.length ≥ room - 1 then throw .enametoolong
  match h.share with
  | none => return downgrade 244 (pre ++ normntpath rest)
  | some root =>
      let (body, climbed) := normuncrest rest
      let server := root.takeWhile fun c => !isSlash c
      let full := slash :: slash :: server ++ body
      if climbed ∧ width8 body < env.pathMax - 1 ∧ width8 full < env.pathMax ∧
          (env.serverDir server).isSome = true then
        again full
      else return downgrade 244 (pre ++ body)

/-- "//server" alone is diverted to the share list. -/
def Env.divert (env : Env) (path : Str) : Str :=
  let server := (path.drop 2).takeWhile fun c => !isSlash c
  if slashAt path 0 && slashAt path 1 && path.length > 2 && !slashAt path 2 &&
      path.getD 2 0 ≠ quest && path.getD 2 0 ≠ dot && path.length ≤ 2 + server.length + 1 then
    (env.serverDir server).getD path
  else path

def isRelative (path : Str) : Bool :=
  path ≠ [] && !slashAt path 0 && !(alphaAt path 0 && path.getD 1 0 = colon)

/-- `__mkntpath2`, with what is remembered afterwards. A climb goes on with a path
without `..`; only the directory of a listed server may bring in one more. -/
def Env.mkntpath2From (env : Env) : Nat → Roots → Str → Roots × Except NtErr Str
  | 0, roots, _ => (roots, .error .enametoolong)
  | fuel + 1, roots, path =>
      let path := (env.procfs path).getD path
      let path := reroot path
      let path := if isRelative path then (env.uncRel roots path).getD path else path
      if slashAt path 0 && slashAt path 1 then
        let roots := uncNote roots path
        (roots, env.finish (fun full => (mkntpath2From env fuel roots full).2) (env.divert path))
      else if isCollapsedUnc roots path then
        if width8 path + 2 > env.pathMax then (roots, .error .enametoolong)
        else
          (roots, env.finish (fun full => (mkntpath2From env fuel roots full).2)
            (env.divert (slash :: path)))
      else (roots, env.finish (fun full => (mkntpath2From env fuel roots full).2) (env.divert path))

def Env.mkntpath2 (env : Env) (roots : Roots) (path : Str) : Roots × Except NtErr Str :=
  env.mkntpath2From 3 roots path

/-! ## The file a path names -/

inductive Vol
  | drive (letter : UInt16)
  | share (server name : Str)
  deriving DecidableEq, Repr

/-- Behind `\\?\` components are taken as they are; one separator may end the path. -/
def literal (ps : List Str) : Option (List Str) :=
  let ps := if ps.getLast? = some [] then ps.dropLast else ps
  if ps.all fun p => p ≠ [] && p ≠ [dot] && p ≠ dotdot then some ps else none

/-- Elsewhere win32 resolves `.` and `..`, never above the volume. -/
def resolved (ps : List Str) : List Str := (clamp [] (ps.map move)).reverse

def isName (p : Str) : Bool := p ≠ [] && p ≠ [dot] && p ≠ dotdot && p ≠ [quest]

/-- The volume and the components of the file an absolute path names. -/
def ntFile (s : Str) : Option (Vol × List Str) :=
  if s.take 8 = longMark ++ uncMark then
    match components (s.drop 8) with
    | server :: name :: ps =>
        if isName server && isName name then (literal ps).map (.share server name, ·) else none
    | _ => none
  else if s.take 4 = longMark then
    if driveMark (s.drop 4) then (literal (components (s.drop 7))).map (.drive (s.getD 4 0), ·)
    else none
  else if s.take 2 = [bslash, bslash] then
    match components (s.drop 2) with
    | server :: name :: ps =>
        if isName server && isName name then some (.share server name, resolved ps) else none
    | _ => none
  else if driveMark s then some (.drive (s.getD 0 0), resolved (components (s.drop 3)))
  else none

/-! ## Paths without an absolute segment inside -/

/-- No absolute win32 segment starts anywhere in the path. -/
def noMarks : Option UInt16 → Str → Bool
  | _, [] => true
  | prev, c :: rest => !markAt prev (c :: rest) && noMarks (some c) rest

theorem rerootLoop_noMarks (prev : Option UInt16) (best w : Str) (h : noMarks prev w = true) :
    rerootLoop prev best w = best := by
  induction w generalizing prev best with
  | nil => rfl
  | cons c rest ih =>
    simp only [noMarks, Bool.and_eq_true, Bool.not_eq_true'] at h
    rw [rerootLoop, h.1, if_neg (by decide)]
    exact ih (some c) best h.2

theorem reroot_noMarks {w : Str} (h : noMarks none w = true) : reroot w = w :=
  rerootLoop_noMarks none w w h

/-- A stretch without colons and backslashes holds no mark, and the rest is read
behind its last character. -/
theorem noMarks_append {prev : Option UInt16} {a b : Str} (hcolon : colon ∉ a) (hback : bslash ∉ a)
    (hlast : ∀ c ∈ a.getLast?, isAlpha c.toNat = false)
    (hb : noMarks ((a.getLast?).or prev) b = true) : noMarks prev (a ++ b) = true := by
  induction a generalizing prev with
  | nil => simpa using hb
  | cons c a ih =>
    simp only [List.mem_cons, not_or] at hcolon hback
    rw [List.cons_append, noMarks, Bool.and_eq_true]
    constructor
    · have hdrive : driveMark (c :: (a ++ b)) = false := by
        cases a with
        | nil =>
          have := hlast c (by simp)
          simp [driveMark, alphaAt, this]
        | cons d a =>
          have : d ≠ colon := fun he => hcolon.2 (by simp [he])
          simp [driveMark, this]
      have hpair : pairMark (c :: (a ++ b)) = false := by simp [pairMark, Ne.symm hback.1]
      simp [markAt, hdrive, hpair]
    · refine ih hcolon.2 hback.2 ?_ ?_
      · intro d hd
        cases a with
        | nil => simp at hd
        | cons e a =>
          apply hlast d
          rw [List.getLast?_cons_cons]
          exact hd
      · cases a with
        | nil => simpa using hb
        | cons e a =>
          rw [List.getLast?_cons_cons] at hb
          cases hl : (e :: a).getLast? with
          | none => simp at hl
          | some d => simpa [hl] using hb

theorem noMarks_plain {prev : Option UInt16} {w : Str} (hcolon : colon ∉ w) (hback : bslash ∉ w) :
    noMarks prev w = true := by
  induction w generalizing prev with
  | nil => rfl
  | cons c w ih =>
    simp only [List.mem_cons, not_or] at hcolon hback
    have hdrive : driveMark (c :: w) = false := by
      cases w with
      | nil => simp [driveMark, colon]
      | cons d w =>
        have : d ≠ colon := fun he => hcolon.2 (by simp [he])
        simp [driveMark, this]
    have hpair : pairMark (c :: w) = false := by simp [pairMark, Ne.symm hback.1]
    simp [noMarks, markAt, hdrive, hpair, ih hcolon.2 hback.2]

/-! ## The conversion, case by case -/

namespace Env

variable (env : Env) (fuel : Nat) (roots : Roots)

/-- A path that starts with two separators. -/
theorem mkntpath2From_double {path : Str} (h0 : slashAt path 0 = true) (h1 : slashAt path 1 = true)
    (hm : noMarks none path = true) :
    env.mkntpath2From (fuel + 1) roots path = (uncNote roots path, env.finish
      (fun full => (env.mkntpath2From fuel (uncNote roots path) full).2) (env.divert path)) := by
  have hproc : env.procfs path = none := env.procfs_none path (Or.inr (Or.inl h1))
  have hrel : isRelative path = false := by simp [isRelative, h0]
  simp [mkntpath2From, hproc, reroot_noMarks hm, hrel, h0, h1]

theorem isSlash_of_alpha {c : UInt16} (h : isAlpha c.toNat = true) : isSlash c = false := by
  cases hs : isSlash c with
  | false => rfl
  | true =>
    simp only [isSlash, Bool.or_eq_true, decide_eq_true_eq] at hs
    rcases hs with rfl | rfl
    · exact absurd h (by decide)
    · exact absurd h (by decide)

/-- Behind a prefix without a share, all of the rest is normalized. -/
theorem finish_flat {again : Str → Except NtErr Str} {q pre rest : Str} {room : Nat}
    (hh : env.head q = .ok ⟨pre, rest, room, none⟩) (htmp : ¬ (pre = [] ∧ isTmp rest = true)) :
    env.finish again q = if rest.length ≥ room - 1 then .error .enametoolong
      else .ok (downgrade 244 (pre ++ normntpath rest)) := by
  simp only [finish, hh]
  show (do
    if pre = [] ∧ isTmp rest = true ∧ rest.length = 4 then return env.tempPath
    if (if pre = [] ∧ isTmp rest = true then rest.drop 5 else rest).length ≥
        (if pre = [] ∧ isTmp rest = true then room - env.tempPath.length else room) - 1 then
      throw NtErr.enametoolong
    return downgrade 244 ((if pre = [] ∧ isTmp rest = true then env.tempPath else pre) ++
      normntpath (if pre = [] ∧ isTmp rest = true then rest.drop 5 else rest))) = _
  have htmp' : ¬ (pre = [] ∧ isTmp rest = true ∧ rest.length = 4) := fun h => htmp ⟨h.1, h.2.1⟩
  simp only [htmp, htmp', if_false]
  split
  · rfl
  · rfl

/-- Behind a share the rest is normalized on its own, and a climb is converted again. -/
theorem finish_share {again : Str → Except NtErr Str} {q pre rest root : Str} {room : Nat}
    (hh : env.head q = .ok ⟨pre, rest, room, some root⟩) (hpre : pre ≠ []) :
    env.finish again q = if rest.length ≥ room - 1 then .error .enametoolong
      else if (normuncrest rest).2 = true ∧ width8 (normuncrest rest).1 < env.pathMax - 1 ∧
          width8 (slash :: slash :: (root.takeWhile fun c => !isSlash c) ++ (normuncrest rest).1) <
            env.pathMax ∧
          (env.serverDir (root.takeWhile fun c => !isSlash c)).isSome = true then
        again (slash :: slash :: (root.takeWhile fun c => !isSlash c) ++ (normuncrest rest).1)
      else .ok (downgrade 244 (pre ++ (normuncrest rest).1)) := by
  simp only [finish, hh]
  show (do
    if pre = [] ∧ isTmp rest = true ∧ rest.length = 4 then return env.tempPath
    if (if pre = [] ∧ isTmp rest = true then rest.drop 5 else rest).length ≥
        (if pre = [] ∧ isTmp rest = true then room - env.tempPath.length else room) - 1 then
      throw NtErr.enametoolong
    let (body, climbed) := normuncrest (if pre = [] ∧ isTmp rest = true then rest.drop 5 else rest)
    let server := root.takeWhile fun c => !isSlash c
    let full := slash :: slash :: server ++ body
    if climbed = true ∧ width8 body < env.pathMax - 1 ∧ width8 full < env.pathMax ∧
        (env.serverDir server).isSome = true then
      again full
    else return downgrade 244 ((if pre = [] ∧ isTmp rest = true then env.tempPath else pre) ++
      body)) = _
  simp only [hpre, false_and, if_false]
  split
  · rfl
  · rfl

/-- A path on a drive: only what follows the drive is normalized. -/
theorem mkntpath2From_drive {c : UInt16} {w : Str} (hc : isAlpha c.toNat = true)
    (hd : driveExists env.drives c.toNat = true) (hm : noMarks none (slash :: c :: slash :: w) = true) :
    env.mkntpath2From (fuel + 1) roots (slash :: c :: slash :: w) =
      (roots, if w.length ≥ min 32767 env.pathMax - 7 - 1 then .error .enametoolong
        else .ok (downgrade 244 (drivePre c ++ normntpath w))) := by
  have hcs := isSlash_of_alpha hc
  have hsl : isSlash slash = true := by decide
  have hproc : env.procfs (slash :: c :: slash :: w) = none :=
    env.procfs_none _ (Or.inr (Or.inr (by simpa [slashAt] using hsl)))
  have hrel : isRelative (slash :: c :: slash :: w) = false := by
    simp [isRelative, slashAt, hsl]
  have hcol : isCollapsedUnc roots (slash :: c :: slash :: w) = false := by
    simp [isCollapsedUnc, slashAt, hsl, hcs, alphaAt, hc]
  have hdiv : env.divert (slash :: c :: slash :: w) = slash :: c :: slash :: w := by
    simp [divert, slashAt, hsl, hcs]
  have hhead : env.head (slash :: c :: slash :: w) =
      .ok ⟨drivePre c, w, min 32767 env.pathMax - 7, none⟩ := by
    simp [head, slashAt, hsl, alphaAt, hc, hd]
  have hpre : drivePre c ≠ [] := by simp [drivePre, longMark]
  have h1 : slashAt (slash :: c :: slash :: w) 1 = false := by simpa [slashAt] using hcs
  simp only [mkntpath2From, hproc, Option.getD_none, reroot_noMarks hm, hrel, Bool.false_eq_true,
    if_false, hcol, hdiv, h1, Bool.and_false]
  rw [env.finish_flat hhead fun h => hpre h.1]

end Env

/-! ## Shares -/

/-- The name of a server: `//?/` and `//./` are not servers. -/
structure IsServer (s : Str) : Prop where
  proper : Proper s
  ne_quest : s.getD 0 0 ≠ quest
  ne_dot : s.getD 0 0 ≠ dot

/-- "server/share", with either separator. -/
def shareRoot (sep : UInt16) (server name : Str) : Str := server ++ sep :: name

/-- Nothing, or something that starts with a separator. -/
def Below (rest : Str) : Prop := ∀ c ∈ rest.head?, isSlash c = true

theorem takeWhile_noSlash {a : Str} (ha : ∀ x ∈ a, isSlash x = false) {rest : Str}
    (hr : Below rest) : (a ++ rest).takeWhile (fun c => !isSlash c) = a := by
  rw [List.takeWhile_append_of_pos (by simpa using ha)]
  cases rest with
  | nil => simp
  | cons c rest => simp [hr c rfl]

theorem below_cons {c : UInt16} (h : isSlash c = true) (rest : Str) : Below (c :: rest) := by
  simpa [Below] using h

theorem isSlash_slash : isSlash slash = true := by decide

theorem Proper.slashAt_zero {p : Str} (h : Proper p) (rest : Str) :
    slashAt (p ++ rest) 0 = false := by
  cases p with
  | nil => exact absurd rfl h.ne_nil
  | cons c p => exact h.noSlash c (by simp)

section Shares

variable {sep : UInt16} {server name rest : Str}

theorem uncRootLen_share (hsep : isSlash sep = true) (hs : IsServer server) (hn : Proper name) (hr : Below rest) :
    uncRootLen (shareRoot sep server name ++ rest) =
      if width8 (shareRoot sep server name) < uncRootLenMax then (shareRoot sep server name).length
      else 0 := by
  have happ : shareRoot sep server name ++ rest = server ++ sep :: (name ++ rest) := by
    simp [shareRoot]
  have hserver : (server ++ sep :: (name ++ rest)).takeWhile (fun c => !isSlash c) = server :=
    takeWhile_noSlash hs.proper.noSlash (below_cons hsep _)
  have hdrop : (server ++ sep :: (name ++ rest)).drop (server.length + 1) = name ++ rest := by
    rw [List.drop_append, List.drop_eq_nil_of_le (by omega)]
    simp
  have hname : (name ++ rest).takeWhile (fun c => !isSlash c) = name := takeWhile_noSlash hn.noSlash hr
  have hfirst : ∀ w, (server ++ w).getD 0 0 = server.getD 0 0 := by
    intro w
    cases server with
    | nil => exact absurd rfl hs.proper.ne_nil
    | cons c s => rfl
  have htake : (server ++ sep :: (name ++ rest)).take (server.length + 1 + name.length) =
      shareRoot sep server name := by
    have : server ++ sep :: (name ++ rest) = shareRoot sep server name ++ rest := by simp [shareRoot]
    rw [this]
    apply List.take_left'
    simp [shareRoot]
    omega
  have hlen : (shareRoot sep server name).length = server.length + 1 + name.length := by
    simp [shareRoot]
    omega
  have hstart : ¬ (server ++ sep :: (name ++ rest) = [] ∨
      slashAt (server ++ sep :: (name ++ rest)) 0 = true ∨
      (server ++ sep :: (name ++ rest)).getD 0 0 = quest ∨
      (server ++ sep :: (name ++ rest)).getD 0 0 = dot) := by
    rw [hfirst, hs.proper.slashAt_zero]
    simpa using ⟨hs.ne_quest, hs.ne_dot⟩
  have hmiddle : ¬ (name ++ rest = [] ∨ slashAt (name ++ rest) 0 = true) := by
    rw [hn.slashAt_zero]
    simpa using fun he => absurd he hn.ne_nil
  have hend : ¬ (name = [dot] ∨ name = dotdot) := by
    simpa using ⟨hn.ne_dot, hn.ne_dotdot⟩
  rw [happ, uncRootLen, if_neg hstart]
  simp only [hserver, hdrop, if_neg hmiddle, hname, if_neg hend, htake, hlen]

theorem length_le_width8 (s : Str) : s.length ≤ width8 s := by
  induction s with
  | nil => exact Nat.le_refl 0
  | cons c s ih =>
    have hc : 1 ≤ unitWidth c := by
      unfold unitWidth
      split
      · exact Nat.le_refl 1
      · split
        · decide
        · split <;> decide
    simp only [width8, List.map_cons, List.sum_cons, List.length_cons] at ih ⊢
    omega

/-- `//server/share` and what follows. -/
def sharePath (sep : UInt16) (server name rest : Str) : Str :=
  slash :: slash :: (shareRoot sep server name ++ rest)

/-- `\\?\UNC\server\share`. -/
def sharePre (server name : Str) : Str := longMark ++ uncMark ++ (server ++ bslash :: name)

theorem sharePre_ne_nil : sharePre server name ≠ [] := by simp [sharePre, longMark]

theorem map_fix_root (hsep : isSlash sep = true) (hs : IsServer server) (hn : Proper name) :
    (shareRoot sep server name).map (fun c => if c = slash then bslash else c) =
      server ++ bslash :: name := by
  have hid : ∀ p : Str, (∀ x ∈ p, isSlash x = false) →
      p.map (fun c => if c = slash then bslash else c) = p := by
    intro p hp
    conv_rhs => rw [← List.map_id p]
    exact List.map_congr_left fun x hx => if_neg (ne_slash (hp x hx))
  simp [shareRoot, hid server hs.proper.noSlash, hid name hn.noSlash, fix_isSlash hsep]

namespace Env

variable (env : Env)

theorem head_double_server {q : Str} (hq : ∃ w, q = server ++ w) (hs : IsServer server) :
    env.head (slash :: slash :: q) =
      if uncRootLen q = 0 then .ok ⟨longMark ++ uncMark, q, min 32767 env.pathMax - 8, none⟩
      else if uncRootLen q ≥ min 32767 env.pathMax - 8 - 1 then .error .enametoolong
      else .ok ⟨longMark ++ uncMark ++
          (q.take (uncRootLen q)).map (fun c => if c = slash then bslash else c),
        q.drop (uncRootLen q), min 32767 env.pathMax - 8 - uncRootLen q,
        some (q.take (uncRootLen q))⟩ := by
  obtain ⟨w, rfl⟩ := hq
  have hz := hs.proper.slashAt_zero w
  cases server with
  | nil => exact absurd rfl hs.proper.ne_nil
  | cons c s =>
    have hc : isSlash c = false := hs.proper.noSlash c (by simp)
    have hq : c ≠ quest := hs.ne_quest
    have hd : c ≠ dot := hs.ne_dot
    have h1 : isAlpha slash.toNat = false := by decide
    simp only [head, slashAt, alphaAt, driveMark, List.getD_cons_zero, List.getD_cons_succ,
      List.cons_append, h1, isSlash_slash, hc, hq, hd, Bool.and_false, Bool.false_and,
      Bool.false_eq_true, if_false, decide_false, Bool.and_self, List.length_cons, Bool.not_false,
      ne_eq, not_false_eq_true, decide_true, List.drop_succ_cons, List.drop_zero]
    simp

theorem head_share (hsep : isSlash sep = true) (hs : IsServer server) (hn : Proper name) (hr : Below rest)
    (hw : width8 (shareRoot sep server name) < uncRootLenMax) :
    env.head (sharePath sep server name rest) = .ok ⟨sharePre server name, rest,
      min 32767 env.pathMax - 8 - (shareRoot sep server name).length,
      some (shareRoot sep server name)⟩ := by
  have hlen : uncRootLen (shareRoot sep server name ++ rest) = (shareRoot sep server name).length := by
    rw [uncRootLen_share hsep hs hn hr, if_pos hw]
  have hle := length_le_width8 (shareRoot sep server name)
  have hpm := env.pathMax_ge
  have hpos : (shareRoot sep server name).length ≠ 0 := by simp [shareRoot]
  rw [sharePath, env.head_double_server ⟨sep :: name ++ rest, by simp [shareRoot]⟩ hs, hlen,
    if_neg hpos, if_neg, List.take_left, List.drop_left, map_fix_root hsep hs hn]
  · rfl
  · simp only [uncRootLenMax] at hw
    omega

theorem head_share_long (hsep : isSlash sep = true) (hs : IsServer server) (hn : Proper name) (hr : Below rest)
    (hw : ¬ width8 (shareRoot sep server name) < uncRootLenMax) :
    env.head (sharePath sep server name rest) = .ok ⟨longMark ++ uncMark,
      shareRoot sep server name ++ rest, min 32767 env.pathMax - 8, none⟩ := by
  have hlen : uncRootLen (shareRoot sep server name ++ rest) = 0 := by
    rw [uncRootLen_share hsep hs hn hr, if_neg hw]
  rw [sharePath, env.head_double_server ⟨sep :: name ++ rest, by simp [shareRoot]⟩ hs, hlen,
    if_pos rfl]

theorem divert_share (hsep : isSlash sep = true) (hs : IsServer server) (hn : Proper name) :
    env.divert (sharePath sep server name rest) = sharePath sep server name rest := by
  have happ : shareRoot sep server name ++ rest = server ++ sep :: (name ++ rest) := by
    simp [shareRoot]
  have hserver : ((sharePath sep server name rest).drop 2).takeWhile (fun c => !isSlash c) = server := by
    rw [sharePath, happ]
    exact takeWhile_noSlash hs.proper.noSlash (below_cons hsep _)
  have hpos := List.length_pos_iff.mpr hn.ne_nil
  have hlen : ¬ (sharePath sep server name rest).length ≤ 2 + server.length + 1 := by
    simp only [sharePath, happ, List.length_cons, List.length_append]
    omega
  simp [divert, hserver, hlen]

/-- **A path on a share**: the rest is normalized on its own. -/
theorem mkntpath2From_share (fuel : Nat) (roots : Roots) (hsep : isSlash sep = true) (hs : IsServer server) (hn : Proper name)
    (hr : Below rest) (hw : width8 (shareRoot sep server name) < uncRootLenMax)
    (hm : noMarks none (sharePath sep server name rest) = true) :
    (env.mkntpath2From (fuel + 1) roots (sharePath sep server name rest)).2 =
      if rest.length ≥ min 32767 env.pathMax - 8 - (shareRoot sep server name).length - 1 then
        .error .enametoolong
      else if (normuncrest rest).2 = true ∧ width8 (normuncrest rest).1 < env.pathMax - 1 ∧
          width8 (slash :: slash :: server ++ (normuncrest rest).1) < env.pathMax ∧
          (env.serverDir server).isSome = true then
        (env.mkntpath2From fuel (uncNote roots (sharePath sep server name rest))
          (slash :: slash :: server ++ (normuncrest rest).1)).2
      else .ok (downgrade 244 (sharePre server name ++ (normuncrest rest).1)) := by
  have hserver : (shareRoot sep server name).takeWhile (fun c => !isSlash c) = server :=
    takeWhile_noSlash hs.proper.noSlash (below_cons hsep _)
  have h0 : slashAt (sharePath sep server name rest) 0 = true := isSlash_slash
  have h1 : slashAt (sharePath sep server name rest) 1 = true := isSlash_slash
  rw [env.mkntpath2From_double fuel roots h0 h1 hm, env.divert_share hsep hs hn,
    env.finish_share (env.head_share hsep hs hn hr hw) sharePre_ne_nil, hserver]

theorem mkntpath2From_share_long (fuel : Nat) (roots : Roots) (hsep : isSlash sep = true) (hs : IsServer server)
    (hn : Proper name) (hr : Below rest) (hw : ¬ width8 (shareRoot sep server name) < uncRootLenMax)
    (hm : noMarks none (sharePath sep server name rest) = true) :
    (env.mkntpath2From (fuel + 1) roots (sharePath sep server name rest)).2 =
      if (shareRoot sep server name ++ rest).length ≥ min 32767 env.pathMax - 8 - 1 then
        .error .enametoolong
      else .ok (downgrade 244
        (longMark ++ uncMark ++ normntpath (shareRoot sep server name ++ rest))) := by
  have h0 : slashAt (sharePath sep server name rest) 0 = true := isSlash_slash
  have h1 : slashAt (sharePath sep server name rest) 1 = true := isSlash_slash
  rw [env.mkntpath2From_double fuel roots h0 h1 hm, env.divert_share hsep hs hn,
    env.finish_flat (env.head_share_long hsep hs hn hr hw) (by simp [longMark])]

end Env

end Shares

/-! ## What the parts of a converted path say -/

theorem literal_names {ps : List Str} (hp : ∀ p ∈ ps, Proper p) : literal ps = some ps := by
  have hlast : ps.getLast? ≠ some [] := by
    intro h
    exact (hp [] (List.mem_of_getLast? h)).ne_nil rfl
  have hall : (ps.all fun p => p ≠ [] && p ≠ [dot] && p ≠ dotdot) = true := by
    rw [List.all_eq_true]
    intro p hmem
    have := hp p hmem
    simp [this.ne_nil, this.ne_dot, this.ne_dotdot]
  simp only [literal, if_neg hlast, hall, if_true]

theorem literal_trailing {ps : List Str} (hp : ∀ p ∈ ps, Proper p) :
    literal (ps ++ [[]]) = some ps := by
  have hall : (ps.all fun p => p ≠ [] && p ≠ [dot] && p ≠ dotdot) = true := by
    rw [List.all_eq_true]
    intro p hmem
    have := hp p hmem
    simp [this.ne_nil, this.ne_dot, this.ne_dotdot]
  simp only [literal, List.getLast?_concat, if_true, List.dropLast_concat, hall]

theorem resolved_names {ps : List Str} (hp : ∀ p ∈ ps, Proper p) : resolved ps = ps := by
  have : ps.map move = ps.map Move.name := List.map_congr_left fun p h => (hp p h).move
  rw [resolved, this, clamp_names]
  simp

theorem resolved_trailing (ps : List Str) : resolved (ps ++ [[]]) = resolved ps := by
  have : move [] = .stay := rfl
  simp [resolved, clamp_append, this, clamp]

/-- Components that name a file whichever way they are read. -/
structure Reads (ps qs : List Str) : Prop where
  literal : literal ps = some qs
  resolved : resolved ps = qs

theorem Reads.of_names {ps : List Str} (hp : ∀ p ∈ ps, Proper p) : Reads ps ps :=
  ⟨literal_names hp, resolved_names hp⟩

theorem Reads.of_trailing {ps : List Str} (hp : ∀ p ∈ ps, Proper p) : Reads (ps ++ [[]]) ps :=
  ⟨literal_trailing hp, by rw [resolved_trailing, resolved_names hp]⟩

/-- Below the limit the `\\?\` goes. -/
theorem downgrade_drive (limit : Nat) (c : UInt16) (s : Str) :
    downgrade limit (drivePre c ++ s) =
      if (drivePre c ++ s).length < limit then c :: colon :: bslash :: s else drivePre c ++ s := by
  have hlen : (drivePre c ++ s).length > 4 := by simp [drivePre, longMark]
  have htake : (drivePre c ++ s).take 4 = longMark := rfl
  have hunc : ¬ ((drivePre c ++ s).length > 8 ∧ ((drivePre c ++ s).drop 4).take 4 = uncMark) := by
    rintro ⟨-, h⟩
    have : ((drivePre c ++ s).drop 4).take 4 = c :: colon :: bslash :: s.take 1 := by
      simp [drivePre, longMark]
    rw [this, uncMark] at h
    have h2 := (List.cons.inj (List.cons.inj h).2).1
    exact absurd h2 (by decide)
  rw [downgrade, if_pos ⟨hlen, htake⟩, if_neg hunc]
  rfl

theorem downgrade_share (limit : Nat) {t : Str} (ht : t ≠ []) :
    downgrade limit (longMark ++ uncMark ++ t) =
      if (longMark ++ uncMark ++ t).length - 6 < limit then bslash :: bslash :: t
      else longMark ++ uncMark ++ t := by
  have hpos := List.length_pos_iff.mpr ht
  have hlen : (longMark ++ uncMark ++ t).length > 8 := by
    simp only [longMark, uncMark, List.length_append, List.length_cons, List.length_nil]
    omega
  rw [downgrade, if_pos ⟨by omega, rfl⟩, if_pos ⟨hlen, rfl⟩]
  rfl

theorem ntFile_drive_long {c : UInt16} (hc : isAlpha c.toNat = true) (s : Str) :
    ntFile (drivePre c ++ s) = (literal (components s)).map (Vol.drive c, ·) := by
  have h8 : (drivePre c ++ s).take 8 ≠ longMark ++ uncMark := by
    intro h
    have := congrArg (fun l => l.getD 5 0) h
    simp [drivePre, longMark, uncMark, colon] at this
  have h4 : (drivePre c ++ s).take 4 = longMark := rfl
  have hmark : driveMark ((drivePre c ++ s).drop 4) = true := by
    simp [drivePre, longMark, driveMark, alphaAt, slashAt, hc, isSlash_bslash]
  have hdrop : (drivePre c ++ s).drop 7 = s := rfl
  have hget : (drivePre c ++ s).getD 4 0 = c := rfl
  rw [ntFile, if_neg h8, if_pos h4, if_pos hmark, hdrop, hget]

theorem ntFile_drive {c : UInt16} (hc : isAlpha c.toNat = true) (s : Str) :
    ntFile (c :: colon :: bslash :: s) = some (.drive c, resolved (components s)) := by
  have hne : c ≠ bslash := by
    rintro rfl
    exact absurd hc (by decide)
  have h8 : (c :: colon :: bslash :: s).take 8 ≠ longMark ++ uncMark := by
    intro h
    exact hne (List.cons.inj h).1
  have h4 : (c :: colon :: bslash :: s).take 4 ≠ longMark := by
    intro h
    exact hne (List.cons.inj h).1
  have h2 : (c :: colon :: bslash :: s).take 2 ≠ [bslash, bslash] := by
    intro h
    exact hne (List.cons.inj h).1
  have hmark : driveMark (c :: colon :: bslash :: s) = true := by
    simp [driveMark, alphaAt, slashAt, hc, isSlash_bslash]
  rw [ntFile, if_neg h8, if_neg h4, if_neg h2, if_pos hmark]
  rfl

/-- A drive path whose components read as names keeps its file through the downgrade. -/
theorem ntFile_downgrade_drive (limit : Nat) {c : UInt16} (hc : isAlpha c.toNat = true) {s : Str}
    {qs : List Str} (h : Reads (components s) qs) :
    ntFile (downgrade limit (drivePre c ++ s)) = some (.drive c, qs) := by
  rw [downgrade_drive]
  split
  · rw [ntFile_drive hc, h.resolved]
  · rw [ntFile_drive_long hc, h.literal]
    rfl

theorem Proper.isName {p : Str} (h : Proper p) (hq : p ≠ [quest]) : isName p = true := by
  simp [Nt.isName, h.ne_nil, h.ne_dot, h.ne_dotdot, hq]

theorem IsServer.isName {s : Str} (h : IsServer s) : isName s = true := by
  apply h.proper.isName
  rintro rfl
  exact h.ne_quest rfl

/-- So does a share path. -/
theorem ntFile_downgrade_share_if (limit : Nat) {t server name : Str} {ps qs : List Str}
    (hs : IsServer server) (ht : components t = server :: name :: ps) (h : Reads ps qs) :
    ntFile (downgrade limit (longMark ++ uncMark ++ t)) =
      if isName name then some (.share server name, qs) else none := by
  have hne : t ≠ [] := by
    rintro rfl
    cases ht
  rw [downgrade_share limit hne]
  split
  · have hq : t.getD 0 0 ≠ quest := by
      cases t with
      | nil => exact absurd rfl hne
      | cons c t =>
        have hserver := hs.proper.ne_nil
        by_cases hc : isSlash c = true
        · rw [components, List.splitOnP_cons_eq_if_modifyHead, if_pos hc] at ht
          exact absurd (List.cons.inj ht).1.symm hserver
        · rw [components, List.splitOnP_cons_eq_if_modifyHead, if_neg hc] at ht
          cases hsp : List.splitOnP isSlash t with
          | nil => exact absurd hsp (List.splitOnP_ne_nil _ _)
          | cons a as =>
            rw [hsp] at ht
            simp only [List.modifyHead_cons, List.cons.injEq] at ht
            rw [← ht.1] at hs
            exact hs.ne_quest
    have h8 : (bslash :: bslash :: t).take 8 ≠ longMark ++ uncMark := by
      intro he
      have := congrArg (fun l => l.getD 2 0) he
      cases t with
      | nil => exact hne rfl
      | cons c t => exact hq this
    have h4 : (bslash :: bslash :: t).take 4 ≠ longMark := by
      intro he
      have := congrArg (fun l => l.getD 2 0) he
      cases t with
      | nil => exact hne rfl
      | cons c t => exact hq this
    have h2 : (bslash :: bslash :: t).take 2 = [bslash, bslash] := rfl
    have hdrop : (bslash :: bslash :: t).drop 2 = t := rfl
    rw [ntFile, if_neg h8, if_neg h4, if_pos h2, hdrop, ht]
    simp [hs.isName, h.resolved]
  · have h8 : (longMark ++ uncMark ++ t).take 8 = longMark ++ uncMark := rfl
    have hdrop : (longMark ++ uncMark ++ t).drop 8 = t := rfl
    rw [ntFile, if_pos h8, hdrop, ht]
    simp [hs.isName, h.literal]

theorem ntFile_downgrade_share (limit : Nat) {t server name : Str} {ps qs : List Str}
    (hs : IsServer server) (hn : isName name = true) (ht : components t = server :: name :: ps)
    (h : Reads ps qs) :
    ntFile (downgrade limit (longMark ++ uncMark ++ t)) = some (.share server name, qs) := by
  rw [ntFile_downgrade_share_if limit hs ht h, if_pos hn]

end ApeShim.Nt
