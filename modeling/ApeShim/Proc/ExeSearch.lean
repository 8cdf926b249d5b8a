import ApeShim.Lib.Orbit
import ApeShim.Lib.Store

/-!
How a command name becomes the path of a program: `commandv` of `shim/commandv.c`, which goes
through the directories of `$PATH`, and `__ape_shim_exe_fallback` of `shim/suffix.c`, which goes
along a chain of symbolic links. On NT both also try the names with an executable suffix. Paths are
built in buffers of fixed size, and a store that would run past the end has no result.
-/

namespace ApeShim.ExeSearch
open CString Store

abbrev Text := List UInt8

inductive Errno
  | ENOENT | EACCES | ENAMETOOLONG
  | other (n : Nat)
  deriving DecidableEq, Repr

/-- `'/'`. -/
def slash : UInt8 := 47

/-- `'.'`. -/
def dot : UInt8 := 46

/-- `':'`. -/
def colon : UInt8 := 58

/-- `".exe"` and `".com"`. -/
def suffixes : List Text := [[46, 101, 120, 101], [46, 99, 111, 109]]

/-! ## The search of `$PATH` -/

/-- The file system and the environment, which nobody changes meanwhile. -/
structure Host where
  isWindows : Bool
  /-- `getenv("PATH")` -/
  path : Option Text
  /-- `_PATH_DEFPATH` -/
  defPath : Text
  /-- `access(path, X_OK)` -/
  access : Text → Except Errno Unit
  /-- `stat`; whether a regular file is there -/
  stat : Text → Except Errno Bool

/-- `errno` and `seen_eacces`. -/
structure Marks where
  errno : Errno
  seenEacces : Bool
  deriving DecidableEq, Repr

structure Search where
  pathbuf : List UInt8
  marks : Marks

/-- `IsExecutableFile`. -/
def Host.isExecutableFile (h : Host) (path : Text) (m : Marks) : Bool × Marks :=
  match h.access path with
  | .ok () =>
      match h.stat path with
      | .ok reg => (reg, m)
      | .error e => (false, { m with errno := e })
  | .error e => (false, ⟨e, m.seenEacces || e = .EACCES⟩)

/-- `IsExecutableFile(pathbuf, &seen_eacces)`. -/
def Host.test (h : Host) (s : Search) : Bool × Search :=
  let (found, marks) := h.isExecutableFile (text s.pathbuf) s.marks
  (found, { s with marks })

/-- Each suffix goes to `pathbuf + len` in turn. -/
def Host.trySuffixes (h : Host) (len : Nat) : List Text → Search → Option (Bool × Search)
  | [], s => some (false, s)
  | x :: xs, s => do
      let pathbuf ← store s.pathbuf len (x ++ [0])
      let (found, s) := h.test { s with pathbuf }
      if found then some (true, s) else h.trySuffixes len xs s

/-- The name under a directory, and its length. -/
def storeName (pathbuf : List UInt8) (dir name : Text) : Option (List UInt8 × Nat) :=
  if dir ≠ [] then do
    let pathbuf ← store pathbuf 0 dir
    let pathbuf ← store pathbuf dir.length [slash]
    let pathbuf ← store pathbuf (dir.length + 1) (name ++ [0])
    some (pathbuf, dir.length + 1 + name.length)
  else do
    let pathbuf ← store pathbuf 0 (name ++ [0])
    some (pathbuf, name.length)

/-- One round of the loop over the directories. -/
def Host.tryDir (h : Host) (name : Text) (suffixable : Bool) (dir : Text) (s : Search) :
    Option (Bool × Search) :=
  if dir.length + 1 + name.length < s.pathbuf.length then do
    let (pathbuf, len) ← storeName s.pathbuf dir name
    let (found, s) := h.test { s with pathbuf }
    if found then some (true, s)
    else if suffixable ∧ len + 4 + 1 ≤ s.pathbuf.length then h.trySuffixes len suffixes s
    else some (false, s)
  else some (false, { s with marks := { s.marks with errno := .ENAMETOOLONG } })

def Host.tryDirs (h : Host) (name : Text) (suffixable : Bool) :
    List Text → Search → Option (Bool × Search)
  | [], s => some (false, s)
  | dir :: dirs, s => do
      let (found, s) ← h.tryDir name suffixable dir s
      if found then some (true, s) else h.tryDirs name suffixable dirs s

/-- `!dot || (slash && dot < slash)` for the last of each. -/
def extensionless (name : Text) : Bool :=
  match lastFrom dot name, lastFrom slash name with
  | none, _ => true
  | some d, some s => s.length < d.length
  | some _, none => false

/-- A name with a slash is looked up as it is. -/
def Host.syspath (h : Host) (name : Text) : Text :=
  if slash ∈ name then [] else h.path.getD h.defPath

/-- `commandv`: the path it returns, and `errno` afterwards. -/
def commandv (h : Host) (name : Text) (pathbuf : List UInt8) (errno : Errno) :
    Option (Option Text × Errno) :=
  if name = [] then some (none, .ENOENT)
  else do
    let suffixable := h.isWindows && extensionless name
    let dirs := (h.syspath name).splitOn colon
    let (found, s) ← h.tryDirs name suffixable dirs ⟨pathbuf, .ENOENT, false⟩
    if found then some (some (text s.pathbuf), errno)
    else some (none, if s.marks.seenEacces then .EACCES else s.marks.errno)

/-! ## What it looks for -/

/-- The last component of a name. -/
def baseName (name : Text) : Text :=
  match lastFrom slash name with
  | some r => r.tail
  | none => name

/-- The name in a directory. -/
def inDir (dir name : Text) : Text := if dir = [] then name else dir ++ slash :: name

/-- The suffixes apply to a name: its last component has none, and one more fits. -/
def Suffixable (h : Host) (name : Text) (len size : Nat) : Prop :=
  h.isWindows = true ∧ dot ∉ baseName name ∧ len + 5 ≤ size

instance (h : Host) (name : Text) (len size : Nat) : Decidable (Suffixable h name len size) :=
  inferInstanceAs (Decidable (_ ∧ _ ∧ _))

/-- The name in one directory, bare and then suffixed; a directory it does not fit has none. -/
def spellings (h : Host) (size : Nat) (name dir : Text) : List Text :=
  if dir.length + 1 + name.length < size then
    inDir dir name ::
      if Suffixable h name (inDir dir name).length size then suffixes.map (inDir dir name ++ ·)
      else []
  else []

/-- All that may be run under a name, in the order of preference. -/
def candidates (h : Host) (size : Nat) (name : Text) : List Text :=
  ((h.syspath name).splitOn colon).flatMap (spellings h size name)

/-- A regular file that may be executed. -/
def Host.executable (h : Host) (p : Text) : Bool :=
  match h.access p, h.stat p with
  | .ok (), .ok true => true
  | _, _ => false

/-- Looking at a path fails with this error. -/
def Host.Fails (h : Host) (p : Text) (e : Errno) : Prop :=
  h.access p = .error e ∨ h.access p = .ok () ∧ h.stat p = .error e

/-- No path fits the buffer in this directory. -/
def TooLong (size : Nat) (name dir : Text) : Prop := size ≤ dir.length + 1 + name.length

/-- A search over these paths, from one state to the next: it finds the first program among them,
or else its marks tell what was wrong with them; `long` says that a directory was passed over. -/
structure Searched (h : Host) (cs : List Text) (long : Prop) (s : Search) (r : Bool × Search) :
    Prop where
  room : r.2.pathbuf.length = s.pathbuf.length
  hit : r.1 = true → ∃ p, cs.find? h.executable = some p ∧ Holds r.2.pathbuf p
  miss : r.1 = false → cs.find? h.executable = none
  eacces : r.1 = false → (r.2.marks.seenEacces = true ↔
    s.marks.seenEacces = true ∨ ∃ c ∈ cs, h.access c = .error .EACCES)
  errno : r.1 = false → r.2.marks.errno = s.marks.errno ∨ (∃ c ∈ cs, h.Fails c r.2.marks.errno) ∨
    long ∧ r.2.marks.errno = .ENAMETOOLONG

/-! ## Searches one after the other -/

variable {h : Host} {cs ds : List Text} {long long' : Prop} {s t : Search} {r : Bool × Search}
  {name dir : Text}

theorem Searched.nothing (h : Host) (s : Search) : Searched h [] False s (false, s) where
  room := rfl
  hit := Bool.noConfusion
  miss _ := rfl
  eacces _ := by
    constructor
    · exact Or.inl
    · rintro (hs | ⟨c, hc, -⟩)
      · exact hs
      · cases hc
  errno _ := .inl rfl

theorem Searched.found (hr : Searched h cs long s (true, t)) (ds : List Text) (long' : Prop) :
    Searched h (cs ++ ds) long' s (true, t) where
  room := hr.room
  hit _ := by
    obtain ⟨p, hp, hholds⟩ := hr.hit rfl
    refine ⟨p, ?_, hholds⟩
    rw [List.find?_append, hp]
    rfl
  miss := Bool.noConfusion
  eacces := Bool.noConfusion
  errno := Bool.noConfusion

theorem Searched.andThen (hr : Searched h cs long s (false, t)) (hr' : Searched h ds long' t r) :
    Searched h (cs ++ ds) (long ∨ long') s r where
  room := hr'.room.trans hr.room
  hit hr1 := by
    obtain ⟨p, hp, hholds⟩ := hr'.hit hr1
    refine ⟨p, ?_, hholds⟩
    rw [List.find?_append, hr.miss rfl, hp]
    rfl
  miss hr1 := by
    rw [List.find?_append, hr.miss rfl, hr'.miss hr1]
    rfl
  eacces hr1 := by
    rw [hr'.eacces hr1, hr.eacces rfl, or_assoc]
    simp only [List.mem_append, or_and_right, exists_or]
  errno hr1 := by
    rcases hr'.errno hr1 with hsame | ⟨c, hc, hfail⟩ | ⟨hlong, hname⟩
    · rw [hsame]
      rcases hr.errno rfl with hs | ⟨c, hc, hfail⟩ | ⟨hlong, hname⟩
      · exact .inl hs
      · exact .inr (.inl ⟨c, List.mem_append_left _ hc, hfail⟩)
      · exact .inr (.inr ⟨.inl hlong, hname⟩)
    · exact .inr (.inl ⟨c, List.mem_append_right _ hc, hfail⟩)
    · exact .inr (.inr ⟨.inr hlong, hname⟩)

theorem Searched.weaken (hr : Searched h cs long s r) (hl : long → long') :
    Searched h cs long' s r where
  room := hr.room
  hit := hr.hit
  miss := hr.miss
  eacces := hr.eacces
  errno hr1 := by
    rcases hr.errno hr1 with hs | hfail | ⟨hlong, hname⟩
    · exact .inl hs
    · exact .inr (.inl hfail)
    · exact .inr (.inr ⟨hl hlong, hname⟩)

/-- What stood in the buffer before does not matter. -/
theorem Searched.fresh {b : List UInt8} (hr : Searched h cs long { s with pathbuf := b } r)
    (hb : b.length = s.pathbuf.length) : Searched h cs long s r :=
  ⟨hr.room.trans hb, hr.hit, hr.miss, hr.eacces, hr.errno⟩

/-- The test of the path that stands in the buffer. -/
theorem test_searched {p : Text} (hp : Holds s.pathbuf p) : Searched h [p] False s (h.test s) := by
  have htest : h.test s = ((h.isExecutableFile p s.marks).1,
      { s with marks := (h.isExecutableFile p s.marks).2 }) := by
    rw [Host.test, hp.text]
  rw [htest]
  cases ha : h.access p with
  | error e =>
      have hx : h.isExecutableFile p s.marks = (false, ⟨e, s.marks.seenEacces || e = .EACCES⟩) := by
        rw [Host.isExecutableFile, ha]
      rw [hx]
      refine ⟨rfl, Bool.noConfusion, fun _ => ?_, fun _ => ?_, fun _ => ?_⟩
      · simp [Host.executable, ha]
      · simp [ha]
      · exact .inr (.inl ⟨p, List.mem_singleton_self p, .inl ha⟩)
  | ok u =>
      cases hst : h.stat p with
      | error e =>
          have hx : h.isExecutableFile p s.marks = (false, { s.marks with errno := e }) := by
            rw [Host.isExecutableFile, ha, hst]
          rw [hx]
          refine ⟨rfl, Bool.noConfusion, fun _ => ?_, fun _ => ?_, fun _ => ?_⟩
          · simp [Host.executable, ha, hst]
          · simp [ha]
          · exact .inr (.inl ⟨p, List.mem_singleton_self p, .inr ⟨ha, hst⟩⟩)
      | ok reg =>
          have hx : h.isExecutableFile p s.marks = (reg, s.marks) := by
            rw [Host.isExecutableFile, ha, hst]
          rw [hx]
          cases reg with
          | true =>
              refine ⟨rfl, fun _ => ⟨p, ?_, hp⟩, Bool.noConfusion, Bool.noConfusion,
                Bool.noConfusion⟩
              simp [Host.executable, ha, hst]
          | false =>
              refine ⟨rfl, Bool.noConfusion, fun _ => ?_, fun _ => ?_, fun _ => .inl rfl⟩
              · simp [Host.executable, ha, hst]
              · simp [ha]

/-! ## The loops -/

theorem trySuffixes_searched {p : Text} {len : Nat} (hlen : len = p.length) (hp : 0 ∉ p) :
    ∀ {xs : List Text} {s : Search}, p <+: s.pathbuf →
      (∀ x ∈ xs, 0 ∉ x ∧ p.length + x.length < s.pathbuf.length) →
      ∃ r, h.trySuffixes len xs s = some r ∧ Searched h (xs.map (p ++ ·)) False s r := by
  intro xs
  induction xs with
  | nil => exact fun {s} _ _ => ⟨_, rfl, .nothing h s⟩
  | cons x xs ih =>
      intro s hpre hxs
      rw [List.forall_mem_cons] at hxs
      obtain ⟨⟨hx, hroom⟩, hrest⟩ := hxs
      obtain ⟨b, hb, hholds, hsize⟩ := store_string x hpre hp hx hroom
      rw [← hlen] at hb
      have hfirst : Searched h [p ++ x] False s (h.test { s with pathbuf := b }) := by
        exact (test_searched hholds).fresh hsize
      have hnext : (h.test { s with pathbuf := b }).2.pathbuf = b := rfl
      cases htest : h.test { s with pathbuf := b } with
      | mk found t =>
          rw [htest] at hfirst hnext
          cases found with
          | true =>
              refine ⟨(true, t), ?_, ?_⟩
              · rw [Host.trySuffixes, hb]
                simp only [Option.bind_eq_bind, Option.bind_some, htest, if_true]
              · exact hfirst.found (xs.map (p ++ ·)) False
          | false =>
              have hpre' : p <+: t.pathbuf := by
                rw [hnext]
                exact (List.prefix_append p x).trans hholds.prefix
              obtain ⟨r, hr, hsearched⟩ := ih hpre' fun y hy => by
                rw [hnext, hsize]
                exact hrest y hy
              refine ⟨r, ?_, ?_⟩
              · rw [Host.trySuffixes, hb]
                simp only [Option.bind_eq_bind, Option.bind_some, htest, Bool.false_eq_true, if_false,
                  hr]
              · exact (hfirst.andThen hsearched).weaken (or_self False).mp

/-- The stores of one directory leave its path in the buffer. -/
theorem storeName_holds {pathbuf : List UInt8} (hdir : 0 ∉ dir) (hname : 0 ∉ name)
    (hroom : dir.length + 1 + name.length < pathbuf.length) :
    ∃ b, storeName pathbuf dir name = some (b, (inDir dir name).length) ∧
      Holds b (inDir dir name) ∧ b.length = pathbuf.length := by
  by_cases hnil : dir = []
  · have hstart : ([] : Text) <+: pathbuf := List.nil_prefix
    obtain ⟨b, hb, hholds, hsize⟩ := store_string name hstart (List.not_mem_nil) hname
      (by rw [List.length_nil]; omega)
    rw [List.length_nil] at hb
    refine ⟨b, ?_, ?_, hsize⟩
    · rw [storeName, if_neg (not_not_intro hnil), hb, inDir, if_pos hnil]
      rfl
    · rw [inDir, if_pos hnil]
      exact hholds
  · have hstart : ([] : Text) <+: pathbuf := List.nil_prefix
    obtain ⟨b₁, hb₁, hpre₁, hsize₁⟩ := store_after dir hstart (by rw [List.length_nil]; omega)
    rw [List.length_nil] at hb₁
    obtain ⟨b₂, hb₂, hpre₂, hsize₂⟩ := store_after [slash] hpre₁
      (by rw [List.nil_append, List.length_singleton]; omega)
    have hsep : 0 ∉ [] ++ dir ++ [slash] := by
      rw [List.nil_append, List.mem_append, not_or]
      exact ⟨hdir, by decide⟩
    have hlen : ([] ++ dir ++ [slash]).length = dir.length + 1 := by
      rw [List.nil_append, List.length_append, List.length_singleton]
    obtain ⟨b₃, hb₃, hholds, hsize₃⟩ := store_string name hpre₂ hsep hname (by rw [hlen]; omega)
    rw [hlen] at hb₃
    have hpath : [] ++ dir ++ [slash] ++ name = inDir dir name := by
      rw [inDir, if_neg hnil, List.nil_append, List.append_assoc, List.singleton_append]
    have hplen : dir.length + 1 + name.length = (inDir dir name).length := by
      rw [inDir, if_neg hnil, List.length_append, List.length_cons]
      omega
    rw [hpath] at hholds
    refine ⟨b₃, ?_, hholds, by omega⟩
    rw [storeName, if_pos hnil, hb₁]
    rw [List.nil_append] at hb₂
    simp only [Option.bind_eq_bind, Option.bind_some, hb₂, hb₃, hplen]

theorem lastFrom_none {x : UInt8} {u : Text} : lastFrom x u = none ↔ x ∉ u := by
  induction u with
  | nil => simp [lastFrom]
  | cons c u ih =>
      rw [lastFrom, List.mem_cons, not_or, ← ih]
      cases lastFrom x u with
      | some w => simp
      | none =>
          by_cases hc : c = x
          · simp [hc]
          · simp [hc, Ne.symm hc]

/-- The last occurrence, and what stands before and after it. -/
theorem lastFrom_some {x : UInt8} {u w : Text} (h : lastFrom x u = some w) :
    ∃ a b, u = a ++ x :: b ∧ w = x :: b ∧ x ∉ b := by
  induction u with
  | nil => cases h
  | cons c u ih =>
      rw [lastFrom] at h
      cases hu : lastFrom x u with
      | some w' =>
          rw [hu] at h
          cases h
          obtain ⟨a, b, hab, hw, hb⟩ := ih hu
          exact ⟨c :: a, b, by rw [hab]; rfl, hw, hb⟩
      | none =>
          rw [hu] at h
          by_cases hc : c = x
          · simp only [hc, if_true] at h
            cases h
            exact ⟨[], u, by rw [hc]; rfl, rfl, lastFrom_none.mp hu⟩
          · simp [hc] at h

/-- The comparison of the two pointers says that the last component has no dot. -/
theorem extensionless_iff : extensionless name = true ↔ dot ∉ baseName name := by
  cases hd : lastFrom dot name with
  | none =>
      have hdot : dot ∉ name := lastFrom_none.mp hd
      have hbase : dot ∉ baseName name := by
        rw [baseName]
        cases hs : lastFrom slash name with
        | none => exact hdot
        | some w =>
            obtain ⟨a, b, rfl, rfl, -⟩ := lastFrom_some hs
            exact fun hmem => hdot (List.mem_append_right _ (List.mem_cons_of_mem _ hmem))
      simp [extensionless, hd, hbase]
  | some d =>
      obtain ⟨a, b, hab, rfl, hb⟩ := lastFrom_some hd
      have hmem : dot ∈ name := by
        rw [hab]
        exact List.mem_append_right _ List.mem_cons_self
      cases hs : lastFrom slash name with
      | none => simp [extensionless, baseName, hd, hs, hmem]
      | some w =>
          obtain ⟨a', b', hab', rfl, hb'⟩ := lastFrom_some hs
          have hsuf : dot :: b <:+ name := ⟨a, hab.symm⟩
          have hsuf' : slash :: b' <:+ name := ⟨a', hab'.symm⟩
          have hbase : baseName name = b' := by
            rw [baseName, hs]
            rfl
          have hext : extensionless name = decide (b'.length < b.length) := by
            simp [extensionless, hd, hs]
          rw [hext, hbase, decide_eq_true_iff]
          constructor
          · intro hlt hmem'
            have hin : b' <:+ dot :: b := List.suffix_of_suffix_length_le
              ((List.suffix_cons slash b').trans hsuf') hsuf (by rw [List.length_cons]; omega)
            rcases List.suffix_cons_iff.mp hin with heq | hin
            · rw [heq, List.length_cons] at hlt
              omega
            · exact hb (hin.mem hmem')
          · intro hnot
            by_contra hge
            have hin : dot :: b <:+ slash :: b' := List.suffix_of_suffix_length_le hsuf hsuf'
              (by simp only [List.length_cons]; omega)
            rcases List.suffix_cons_iff.mp hin with heq | hin
            · exact absurd (List.head_eq_of_cons_eq heq) (by decide)
            · exact hnot (hin.mem List.mem_cons_self)

theorem suffix_clean : ∀ x ∈ suffixes, 0 ∉ x ∧ x.length = 4 := by decide

theorem inDir_clean (hdir : 0 ∉ dir) (hname : 0 ∉ name) : 0 ∉ inDir dir name := by
  rw [inDir]
  by_cases hnil : dir = []
  · rw [if_pos hnil]
    exact hname
  · rw [if_neg hnil, List.mem_append, List.mem_cons, not_or, not_or]
    exact ⟨hdir, by decide, hname⟩

/-- One directory: the spellings of the name there, in their order. -/
theorem tryDir_searched {size : Nat} (hdir : 0 ∉ dir) (hname : 0 ∉ name)
    (hsize : s.pathbuf.length = size) :
    ∃ r, h.tryDir name (h.isWindows && extensionless name) dir s = some r ∧
      Searched h (spellings h size name dir) (TooLong size name dir) s r := by
  by_cases hroom : dir.length + 1 + name.length < s.pathbuf.length
  · obtain ⟨b, hb, hholds, hlen⟩ := storeName_holds hdir hname hroom
    have hfirst : Searched h [inDir dir name] False s (h.test { s with pathbuf := b }) :=
      (test_searched hholds).fresh hlen
    have hnext : (h.test { s with pathbuf := b }).2.pathbuf = b := rfl
    have hspell : spellings h size name dir = [inDir dir name] ++
        if Suffixable h name (inDir dir name).length size then suffixes.map (inDir dir name ++ ·)
        else [] := by
      rw [spellings, if_pos (by omega)]
      rfl
    rw [Host.tryDir, if_pos hroom, hb, hspell]
    simp only [Option.bind_eq_bind, Option.bind_some]
    cases htest : h.test { s with pathbuf := b } with
    | mk found t =>
        rw [htest] at hfirst hnext
        cases found with
        | true =>
            exact ⟨(true, t), if_pos rfl, hfirst.found _ _⟩
        | false =>
            have hsize' : t.pathbuf.length = size := by rw [hnext, hlen, hsize]
            have hsuf : ((h.isWindows && extensionless name) = true ∧
                (inDir dir name).length + 4 + 1 ≤ t.pathbuf.length) ↔
                Suffixable h name (inDir dir name).length size := by
              rw [Bool.and_eq_true, extensionless_iff, Suffixable, hsize', and_assoc]
            simp only [Bool.false_eq_true, if_false]
            by_cases happly : Suffixable h name (inDir dir name).length size
            · rw [if_pos (hsuf.mpr happly), if_pos happly]
              have hpre : inDir dir name <+: t.pathbuf := by
                rw [hnext]
                exact hholds.prefix
              have hfit : (inDir dir name).length + 5 ≤ size := happly.2.2
              obtain ⟨r, hr, hsearched⟩ := trySuffixes_searched (h := h) rfl
                (inDir_clean hdir hname) hpre fun x hx => by
                  rw [(suffix_clean x hx).2, hsize']
                  exact ⟨(suffix_clean x hx).1, by omega⟩
              refine ⟨r, hr, (hfirst.andThen hsearched).weaken fun hlong => ?_⟩
              exact absurd hlong (or_self False).mp
            · rw [if_neg (mt hsuf.mp happly), if_neg happly]
              refine ⟨_, rfl, (hfirst.andThen (.nothing h t)).weaken fun hlong => ?_⟩
              exact absurd hlong (or_self False).mp
  · rw [Host.tryDir, if_neg hroom]
    refine ⟨_, rfl, ?_⟩
    rw [spellings, if_neg (by omega)]
    refine ⟨rfl, Bool.noConfusion, fun _ => rfl, fun _ => ?_, fun _ => ?_⟩
    · constructor
      · exact Or.inl
      · rintro (hs | ⟨c, hc, -⟩)
        · exact hs
        · cases hc
    · exact .inr (.inr ⟨by rw [TooLong]; omega, rfl⟩)

theorem tryDirs_searched {size : Nat} {dirs : List Text} (hname : 0 ∉ name)
    (hdirs : ∀ dir ∈ dirs, 0 ∉ dir) : ∀ {s : Search}, s.pathbuf.length = size →
    ∃ r, h.tryDirs name (h.isWindows && extensionless name) dirs s = some r ∧
      Searched h (dirs.flatMap (spellings h size name)) (∃ dir ∈ dirs, TooLong size name dir) s r := by
  induction dirs with
  | nil => exact fun {s} _ => ⟨_, rfl, (Searched.nothing h s).weaken False.elim⟩
  | cons dir dirs ih =>
      intro s hsize
      rw [List.forall_mem_cons] at hdirs
      obtain ⟨⟨found, t⟩, hr, hfirst⟩ := tryDir_searched (h := h) hdirs.1 hname hsize
      rw [Host.tryDirs, hr, List.flatMap_cons]
      simp only [Option.bind_eq_bind, Option.bind_some]
      cases found with
      | true =>
          exact ⟨(true, t), if_pos rfl, hfirst.found _ _⟩
      | false =>
          obtain ⟨r, hrest, hsearched⟩ := ih hdirs.2 (hfirst.room.trans hsize)
          refine ⟨r, hrest, (hfirst.andThen hsearched).weaken ?_⟩
          rintro (hlong | ⟨d, hd, hlong⟩)
          · exact ⟨dir, List.mem_cons_self, hlong⟩
          · exact ⟨d, List.mem_cons_of_mem _ hd, hlong⟩

theorem mem_of_splitOn {c x : UInt8} {u d : Text} (hd : d ∈ u.splitOn c) (hx : x ∈ d) : x ∈ u := by
  induction u generalizing d with
  | nil =>
      rw [List.splitOn_nil, List.mem_singleton] at hd
      exact hd ▸ hx
  | cons y u ih =>
      rw [List.splitOn_cons_eq_if_modifyHead] at hd
      by_cases hy : (y == c) = true
      · rw [if_pos hy, List.mem_cons] at hd
        rcases hd with rfl | hd
        · cases hx
        · exact List.mem_cons_of_mem _ (ih hd hx)
      · rw [if_neg hy] at hd
        cases hu : u.splitOn c with
        | nil => exact absurd hu (List.splitOn_ne_nil c u)
        | cons e es =>
            rw [hu, List.modifyHead_cons, List.mem_cons] at hd
            rcases hd with rfl | hd
            · rcases List.mem_cons.mp hx with rfl | hx
              · exact List.mem_cons_self
              · exact List.mem_cons_of_mem _ (ih (hu ▸ List.mem_cons_self) hx)
            · exact List.mem_cons_of_mem _ (ih (hu ▸ List.mem_cons_of_mem _ hd) hx)

/-! ## The search -/

theorem syspath_clean (hpath : ∀ p, h.path = some p → 0 ∉ p) (hdef : 0 ∉ h.defPath) :
    0 ∉ h.syspath name := by
  rw [Host.syspath]
  by_cases hslash : slash ∈ name
  · rw [if_pos hslash]
    exact List.not_mem_nil
  · rw [if_neg hslash]
    cases hp : h.path with
    | none => exact hdef
    | some p => exact hpath p hp

/-- `git` is there only as `/usr/git.exe`. -/
def gitHost : Host where
  isWindows := true
  path := some [47, 98, 105, 110, 58, 47, 117, 115, 114]
  defPath := []
  access p := if p = [47, 117, 115, 114, 47, 103, 105, 116, 46, 101, 120, 101] then .ok ()
    else .error .ENOENT
  stat _ := .ok true

/-- The file system as NT answers for names relative to `dirfd`. -/
structure Links where
  isWindows : Bool
  /-- `fstatat(dirfd, name, &st, 0)`; whether a regular file is there -/
  fstatat : Text → Except Errno Bool
  /-- `readlinkat`, before it is cut to the buffer -/
  readlinkat : Text → Except Errno Text
  /-- `PATH_MAX` -/
  pathMax : Nat

/-- The three buffers of the search, and `errno`. -/
structure Chase where
  buf : List UInt8
  cur : List UInt8
  target : List UInt8
  errno : Errno

/-- The loop of `probe_suffixes`. -/
def Links.probeEach (lk : Links) (name : Text) : List Text → Chase → Option (Bool × Chase)
  | [], s => some (false, s)
  | x :: xs, s => do
      let buf ← store s.buf 0 name
      let buf ← store buf name.length (x ++ [0])
      match lk.fstatat (text buf) with
      | .ok true => some (true, { s with buf })
      | .ok false => lk.probeEach name xs { s with buf }
      | .error errno => lk.probeEach name xs { s with buf, errno }

/-- `probe_suffixes(dirfd, cur, buf)`. -/
def Links.probeSuffixes (lk : Links) (s : Chase) : Option (Bool × Chase) := do
  let len ← strlen s.cur
  if len = 0 ∨ lk.pathMax < len + 5 then some (false, s)
  else
    let base := match ← strrchr slash s.cur with
      | some r => r.tail
      | none => s.cur
    if (← strchr dot base).isSome then some (false, s)
    else lk.probeEach (s.cur.take len) suffixes s

/-- The rest of a round: the next name of the chain goes into `cur`, or the loop is left. -/
def Links.hop (lk : Links) (s : Chase) : Option (Bool × Chase) :=
  match lk.readlinkat (text s.cur) with
  | .error errno => some (false, { s with errno })
  | .ok w => do
      let n := (w.take (lk.pathMax - 1)).length
      if n = 0 then some (false, s)
      else
        let target ← store s.target 0 (w.take (lk.pathMax - 1))
        let target ← store target n [0]
        if target.head? = some slash then
          let cur ← store s.cur 0 (target.take (n + 1))
          some (true, { s with cur, target })
        else
          let dir := match ← strrchr slash s.cur with
            | some r => s.cur.length - r.length + 1
            | none => 0
          if lk.pathMax ≤ dir + n then some (false, { s with target })
          else
            let cur ← store s.cur dir (target.take (n + 1))
            some (true, { s with cur, target })

/-- The loop over the chain, for so many rounds. -/
def Links.chase (lk : Links) : Nat → Chase → Option (Bool × Chase)
  | 0, s => some (false, s)
  | n + 1, s => do
      let (found, s) ← lk.probeSuffixes s
      if found then some (true, s)
      else
        let (more, s) ← lk.hop s
        if more then lk.chase n s else some (false, s)

/-- `__ape_shim_exe_fallback`: what it leaves in `buf` when it returns 1, and `errno`. The buffers
start with any contents. -/
def exeFallback (lk : Links) (path : Text) (s : Chase) : Option (Option Text × Errno) :=
  if ¬lk.isWindows then some (none, s.errno)
  else if path.length = 0 ∨ lk.pathMax ≤ path.length then some (none, s.errno)
  else do
    let cur ← store s.cur 0 (path ++ [0])
    let (found, t) ← lk.chase 16 { s with cur }
    some (if found then some (text t.buf) else none, s.errno)

/-! ## The chain -/

/-- The directory of a name, with its slash. -/
def dirPart (name : Text) : Text := name.take (name.length - (baseName name).length)

/-- Where the link of this name points. -/
def Links.next (lk : Links) (name : Text) : Option Text :=
  match lk.readlinkat name with
  | .error _ => none
  | .ok w =>
      let w := w.take (lk.pathMax - 1)
      if w = [] then none
      else if w.head? = some slash then some (text w)
      else if lk.pathMax ≤ (dirPart name).length + w.length then none
      else some (dirPart name ++ text w)

def Links.isReg (lk : Links) (name : Text) : Bool :=
  match lk.fstatat name with
  | .ok reg => reg
  | .error _ => false

/-- The regular file that is a name with a suffix. -/
def Links.suffixed (lk : Links) (name : Text) : Option Text :=
  if name ≠ [] ∧ name.length + 5 ≤ lk.pathMax ∧ dot ∉ baseName name then
    (suffixes.map (name ++ ·)).find? lk.isReg
  else none

/-- The first of the names of a chain that has one. -/
def Links.winner (lk : Links) (n : Nat) (name : Text) : Option Text :=
  (List.range n).findSome? fun k => (Orbit.after lk.next k name).bind lk.suffixed

variable {lk : Links} {c d : Chase}

/-- The buffers have the size they are declared with. -/
structure Sized (lk : Links) (c : Chase) : Prop where
  buf : c.buf.length = lk.pathMax
  cur : c.cur.length = lk.pathMax
  target : c.target.length = lk.pathMax

theorem baseName_suffix (name : Text) : baseName name <:+ name := by
  rw [baseName]
  cases hs : lastFrom slash name with
  | none => exact List.suffix_rfl
  | some r => exact (List.tail_suffix r).trans (lastFrom_suffix hs).2

/-- The last component, read off the buffer. -/
theorem base_in_buffer (hname : 0 ∉ name) (rest : Text) :
    ∃ r, strrchr slash (name ++ 0 :: rest) = some r ∧
      (match r with | some r => r.tail | none => name ++ 0 :: rest) = baseName name ++ 0 :: rest := by
  refine ⟨_, strrchr_append hname rest, ?_⟩
  rw [baseName]
  cases hs : lastFrom slash name with
  | none => rfl
  | some r =>
      obtain ⟨a, b, -, rfl, -⟩ := lastFrom_some hs
      rfl

/-- The directory, read off the buffer. -/
theorem dir_in_buffer (hname : 0 ∉ name) (rest : Text) :
    ∃ r, strrchr slash (name ++ 0 :: rest) = some r ∧
      (match r with | some r => (name ++ 0 :: rest).length - r.length + 1 | none => 0) =
        (dirPart name).length := by
  refine ⟨_, strrchr_append hname rest, ?_⟩
  rw [dirPart, List.length_take, baseName]
  cases hs : lastFrom slash name with
  | none => simp
  | some r =>
      obtain ⟨a, b, rfl, rfl, -⟩ := lastFrom_some hs
      simp only [Option.map_some, List.length_append, List.length_cons, List.tail_cons]
      omega

theorem dirPart_begins (name : Text) : dirPart name <+: name := List.take_prefix _ _

/-! ## One round -/

/-- The suffixes are tried in order on a name that fits. -/
theorem probeEach_spec (hname : 0 ∉ name) : ∀ {xs : List Text} {c : Chase}, Sized lk c →
    (∀ x ∈ xs, 0 ∉ x ∧ name.length + x.length < lk.pathMax) →
    ∃ found d, lk.probeEach name xs c = some (found, d) ∧ Sized lk d ∧ d.cur = c.cur ∧
      (found = true → ∃ p, (xs.map (name ++ ·)).find? lk.isReg = some p ∧ Holds d.buf p) ∧
      (found = false → (xs.map (name ++ ·)).find? lk.isReg = none) := by
  intro xs
  induction xs with
  | nil => exact fun {c} hc _ => ⟨false, c, rfl, hc, rfl, Bool.noConfusion, fun _ => rfl⟩
  | cons x xs ih =>
      intro c hc hxs
      rw [List.forall_mem_cons] at hxs
      obtain ⟨⟨hx, hroom⟩, hrest⟩ := hxs
      have hbuf := hc.buf
      obtain ⟨b₁, hb₁, hpre, hlen₁⟩ := store_after name (List.nil_prefix (l := c.buf))
        (by rw [List.length_nil]; omega)
      rw [List.length_nil] at hb₁
      rw [List.nil_append] at hpre
      obtain ⟨b₂, hb₂, hholds, hlen₂⟩ := store_string x hpre hname hx (by omega)
      have hsized : Sized lk { c with buf := b₂ } :=
        ⟨hlen₂.trans (hlen₁.trans hbuf), hc.cur, hc.target⟩
      rw [Links.probeEach, hb₁]
      simp only [Option.bind_eq_bind, Option.bind_some, hb₂, hholds.text]
      rw [List.map_cons]
      cases hst : lk.fstatat (name ++ x) with
      | error e =>
          have hno : lk.isReg (name ++ x) = false := by rw [Links.isReg, hst]
          obtain ⟨found, d, hd, hd'⟩ := ih (c := { c with buf := b₂, errno := e })
            ⟨hsized.buf, hsized.cur, hsized.target⟩ hrest
          rw [List.find?_cons_of_neg (by rw [hno]; exact Bool.false_ne_true)]
          exact ⟨found, d, hd, hd'⟩
      | ok reg =>
          cases reg with
          | true =>
              have hyes : lk.isReg (name ++ x) = true := by rw [Links.isReg, hst]
              refine ⟨true, _, rfl, hsized, rfl, fun _ => ⟨name ++ x, ?_, hholds⟩, Bool.noConfusion⟩
              exact List.find?_cons_of_pos hyes
          | false =>
              have hno : lk.isReg (name ++ x) = false := by rw [Links.isReg, hst]
              obtain ⟨found, d, hd, hd'⟩ := ih hsized hrest
              rw [List.find?_cons_of_neg (by rw [hno]; exact Bool.false_ne_true)]
              exact ⟨found, d, hd, hd'⟩

theorem probeSuffixes_spec (hc : Sized lk c) (hcur : Holds c.cur name) :
    ∃ found d, lk.probeSuffixes c = some (found, d) ∧ Sized lk d ∧ d.cur = c.cur ∧
      (found = true → ∃ p, lk.suffixed name = some p ∧ Holds d.buf p) ∧
      (found = false → lk.suffixed name = none) := by
  have hname := hcur.clean
  obtain ⟨rest, hcurEq⟩ := hcur.2
  obtain ⟨r, hr, hbase⟩ := base_in_buffer hname rest
  have hclean : 0 ∉ baseName name := fun hz => hname ((baseName_suffix name).mem hz)
  have htake : c.cur.take name.length = name := by rw [hcurEq, List.take_left]
  have hstrlen : strlen c.cur = some name.length := by
    rw [hcurEq]
    exact strlen_append hname
  rw [← hcurEq] at hr hbase
  rw [Links.probeSuffixes, hstrlen, Links.suffixed]
  simp only [Option.bind_eq_bind, Option.bind_some]
  by_cases hlen : name.length = 0 ∨ lk.pathMax < name.length + 5
  · rw [if_pos hlen]
    refine ⟨false, c, rfl, hc, rfl, Bool.noConfusion, fun _ => if_neg ?_⟩
    rintro ⟨hne, hfit, -⟩
    rcases hlen with hzero | hlong
    · exact hne (List.length_eq_zero_iff.mp hzero)
    · omega
  · rw [if_neg hlen, hr]
    rw [not_or, not_lt] at hlen
    have hne : name ≠ [] := fun hnil => hlen.1 (List.length_eq_zero_iff.mpr hnil)
    simp only [Option.bind_some]
    rw [hbase, strchr_append (by decide) hclean]
    by_cases hdot : dot ∈ baseName name
    · rw [if_pos hdot]
      exact ⟨false, c, rfl, hc, rfl, Bool.noConfusion, fun _ => if_neg fun hall => hall.2.2 hdot⟩
    · rw [if_neg hdot, if_pos ⟨hne, hlen.2, hdot⟩, htake]
      have hsuffixes : ∀ x ∈ suffixes, 0 ∉ x ∧ name.length + x.length < lk.pathMax := by
        intro x hx
        rw [(suffix_clean x hx).2]
        exact ⟨(suffix_clean x hx).1, by omega⟩
      obtain ⟨found, d, hd, hspec⟩ := probeEach_spec hname hc hsuffixes
      exact ⟨found, d, hd, hspec⟩

theorem hop_spec (hc : Sized lk c) (hcur : Holds c.cur name) :
    ∃ more d, lk.hop c = some (more, d) ∧ Sized lk d ∧
      (more = true → ∃ p, lk.next name = some p ∧ Holds d.cur p) ∧
      (more = false → lk.next name = none) := by
  have hname := hcur.clean
  obtain ⟨rest, hcurEq⟩ := hcur.2
  rw [Links.hop, Links.next, hcur.text]
  cases hlink : lk.readlinkat name with
  | error e =>
      exact ⟨false, _, rfl, ⟨hc.buf, hc.cur, hc.target⟩, Bool.noConfusion, fun _ => rfl⟩
  | ok full =>
      simp only [Option.bind_eq_bind]
      have hle : (full.take (lk.pathMax - 1)).length ≤ lk.pathMax - 1 := List.length_take_le _ _
      generalize full.take (lk.pathMax - 1) = w at hle
      by_cases hw : w = []
      · rw [if_pos (List.length_eq_zero_iff.mpr hw), if_pos hw]
        exact ⟨false, c, rfl, hc, Bool.noConfusion, fun _ => rfl⟩
      · have hpos : 0 < w.length := List.length_pos_iff.mpr hw
        have htarget := hc.target
        have hcurLen := hc.cur
        rw [if_neg hpos.ne', if_neg hw]
        obtain ⟨t₁, ht₁, hpre₁, hlen₁⟩ := store_after w (List.nil_prefix (l := c.target))
          (by rw [List.length_nil]; omega)
        rw [List.length_nil] at ht₁
        rw [List.nil_append] at hpre₁
        obtain ⟨t₂, ht₂, hpre₂, hlen₂⟩ := store_after [0] hpre₁
          (by rw [List.length_singleton]; omega)
        have htake : t₂.take (w.length + 1) = w ++ [0] := by
          have := List.prefix_iff_eq_take.mp hpre₂
          rwa [List.length_append, List.length_singleton, eq_comm] at this
        have hhead : t₂.head? = w.head? := by
          obtain ⟨t, ht⟩ := hpre₂
          rw [← ht, List.append_assoc, List.head?_append_of_ne_nil _ hw]
        have hsize : ∀ b : List UInt8, b.length = c.cur.length →
            Sized lk { c with cur := b, target := t₂ } :=
          fun b hb => ⟨hc.buf, hb.trans hc.cur, hlen₂.trans (hlen₁.trans hc.target)⟩
        simp only [ht₁, ht₂, Option.bind_some, htake, hhead]
        by_cases habs : w.head? = some slash
        · rw [if_pos habs, if_pos habs]
          obtain ⟨b, hb, hholds, hlen⟩ := store_text w (List.nil_prefix (l := c.cur))
            List.not_mem_nil (by rw [List.length_nil]; omega)
          rw [List.length_nil] at hb
          rw [hb]
          exact ⟨true, _, rfl, hsize b hlen, fun _ => ⟨_, rfl, hholds⟩, Bool.noConfusion⟩
        · rw [if_neg habs, if_neg habs]
          obtain ⟨r, hr, hdir⟩ := dir_in_buffer hname rest
          rw [← hcurEq] at hr hdir
          simp only [hr, Option.bind_some, hdir]
          by_cases hlong : lk.pathMax ≤ (dirPart name).length + w.length
          · rw [if_pos hlong, if_pos hlong]
            exact ⟨false, _, rfl, hsize c.cur rfl, Bool.noConfusion, fun _ => rfl⟩
          · rw [if_neg hlong, if_neg hlong]
            have hpre : dirPart name <+: c.cur := (dirPart_begins name).trans hcur.prefix
            have hclean : 0 ∉ dirPart name := fun hz => hname ((dirPart_begins name).mem hz)
            obtain ⟨b, hb, hholds, hlen⟩ := store_text w hpre hclean (by omega)
            rw [hb]
            exact ⟨true, _, rfl, hsize b hlen, fun _ => ⟨_, rfl, hholds⟩, Bool.noConfusion⟩

/-! ## The whole chain -/

theorem winner_succ (n : Nat) (name : Text) :
    lk.winner (n + 1) name = (lk.suffixed name).or ((lk.next name).bind (lk.winner n)) := by
  have hrest : ((List.range n).map Nat.succ).findSome?
      (fun k => (Orbit.after lk.next k name).bind lk.suffixed) = (lk.next name).bind (lk.winner n) := by
    rw [List.findSome?_map]
    cases hnext : lk.next name with
    | none =>
        rw [Option.bind_none, List.findSome?_eq_none_iff]
        intro k _
        rw [Function.comp_apply, Orbit.after, hnext]
        rfl
    | some p =>
        rw [Option.bind_some, Links.winner]
        congr 1
        funext k
        rw [Function.comp_apply, Orbit.after, hnext]
        rfl
  rw [Links.winner, List.range_succ_eq_map, List.findSome?_cons, hrest]
  cases hsuf : lk.suffixed name with
  | none => simp [Orbit.after, hsuf]
  | some p => simp [Orbit.after, hsuf]

theorem chase_spec (n : Nat) : ∀ {name : Text} {c : Chase}, Sized lk c → Holds c.cur name →
    ∃ found d, lk.chase n c = some (found, d) ∧
      (found = true → ∃ p, lk.winner n name = some p ∧ Holds d.buf p) ∧
      (found = false → lk.winner n name = none) := by
  induction n with
  | zero => exact fun {_ c} _ _ => ⟨false, c, rfl, Bool.noConfusion, fun _ => rfl⟩
  | succ n ih =>
      intro name c hc hcur
      obtain ⟨found, d, hd, hsized, hdcur, hhit, hmiss⟩ := probeSuffixes_spec hc hcur
      rw [Links.chase, hd, winner_succ]
      simp only [Option.bind_eq_bind, Option.bind_some]
      cases found with
      | true =>
          obtain ⟨p, hp, hholds⟩ := hhit rfl
          exact ⟨true, d, if_pos rfl, fun _ => ⟨p, by rw [hp]; rfl, hholds⟩, Bool.noConfusion⟩
      | false =>
          rw [hmiss rfl, Option.none_or]
          simp only [Bool.false_eq_true, if_false]
          rw [← hdcur] at hcur
          obtain ⟨more, e, he, hsized', hgo, hstop⟩ := hop_spec hsized hcur
          rw [he]
          simp only [Option.bind_some]
          cases more with
          | true =>
              obtain ⟨p, hp, hholds⟩ := hgo rfl
              obtain ⟨found', f, hf, hfound⟩ := ih hsized' hholds
              rw [hp]
              exact ⟨found', f, hf, hfound⟩
          | false =>
              rw [hstop rfl]
              exact ⟨false, e, rfl, Bool.noConfusion, fun _ => rfl⟩

/-- `a` is a link to `b/c`, and `b/c` is there as `b/c.com`. -/
def linked : Links where
  isWindows := true
  fstatat p := if p = [98, 47, 99, 46, 99, 111, 109] then .ok true else .error .ENOENT
  readlinkat p := if p = [97] then .ok [98, 47, 99] else .error (.other 22)
  pathMax := 16

end ApeShim.ExeSearch
