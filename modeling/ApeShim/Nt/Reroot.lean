import ApeShim.Nt.Spellers

/-!
The scan of `__mkntpath2` for the last absolute segment, behind the rewrite of paths
under `/proc` and `/sys` (`__ape_shim_procfs_rewrite` of `shim/procfs/core/materialize.c`)
that comes before it.
-/

namespace ApeShim.Nt

/-! ## The rewrite -/

def isDigit (c : UInt16) : Bool := 0x30 ≤ c && c ≤ 0x39

/-- `strtoul` in base 10, as a `uint32_t`. -/
def strtoul (s : Str) : UInt32 :=
  UInt32.ofNat (min ((s.takeWhile isDigit).foldl (fun n c => 10 * n + (c.toNat - 0x30)) 0)
    (2 ^ 64 - 1))

/-- `%u` -/
def decimal (n : UInt32) : Str := ascii (Nat.toDigits 10 n.toNat)

def procName : Str := ascii ['/', 'p', 'r', 'o', 'c']

def selfName : Str := ascii ['s', 'e', 'l', 'f']

/-- The prefixes of `g_sysfs`, each with its directory. -/
def sysfs : List (Str × Str) :=
  [("/sys/class/net", "sysfs-net"), ("/sys/class/power_supply", "sysfs-power"),
    ("/sys/devices/system/cpu", "sysfs-cpu"), ("/sys/class/dmi", "sysfs-dmi"),
    ("/sys/devices/virtual/dmi", "sysfs-dmi")].map fun (a, b) => (ascii a.toList, ascii b.toList)

/-- `path` is `m`, or lies under it. -/
def under (m path : Str) : Bool :=
  path.take m.length = m && (path.drop m.length).head?.all (· = slash)

structure Tree where
  /-- `pc_root`, where there is one and the thread is not at its own writes (`pc_busy`) -/
  root : Option Str
  /-- `pfs_self_pid` -/
  selfPid : UInt32
  getpid : UInt32

/-- `n->pid || n->was_self` of the parsed path, and the process that is written instead. -/
def Tree.process (t : Tree) (sub : Str) : Option UInt32 :=
  let first := take8 63 ((sub.dropWhile (· = slash)).takeWhile (· ≠ slash))
  if first = selfName then some t.selfPid
  else if first.head?.any isDigit then
    if strtoul first = t.getpid then some t.selfPid
    else if strtoul first = 0 then none
    else some (strtoul first)
  else none

/-- `pc_phys_suffix`, before it is cut at the end of its buffer. -/
def Tree.suffix (t : Tree) (sub : Str) : Str :=
  match t.process sub with
  | some pid => slash :: (decimal pid ++ (sub.dropWhile (· = slash)).dropWhile (· ≠ slash))
  | none => if sub = [] then [slash] else sub

/-- `__ape_shim_procfs_rewrite`, into a buffer of 600 bytes. A path of `/proc` goes through
one of 300 on the way; of a character cut in two nothing is kept. -/
def Tree.rewrite (t : Tree) (path : Str) : Option Str :=
  match sysfs.find? fun e => under e.1 path with
  | some (m, dir) =>
      t.root.bind fun root =>
        let out := root ++ slash :: (dir ++
          if path.drop m.length = [] then [slash] else path.drop m.length)
        if width8 out < 600 then some out else none
  | none =>
      if under procName path then
        t.root.bind fun root =>
          let suffix := t.suffix (path.drop procName.length)
          if width8 root + min (width8 suffix) 299 < 600 then some (root ++ take8 299 suffix)
          else none
      else none

/-! ## The law -/

/-- An absolute win32 path without another absolute segment in it. -/
structure Absolute (w : Str) : Prop where
  mark : (driveMark w || pairMark w) = true
  last : noMarks w.head? w.tail = true

/-- What becomes of the path in the tree is not cut. -/
def Tree.Kept (t : Tree) (p w : Str) : Prop :=
  under procName p = true → ∀ root ∈ t.root, width8 root ≤ 300 →
    width8 (t.suffix (p.drop procName.length ++ slash :: w)) ≤ 299

section Scan

variable {w : Str}

theorem isDigit_of_alpha {c : UInt16} (h : isAlpha c.toNat = true) : isDigit c = false := by
  rw [← Bool.not_eq_true]
  intro hd
  simp only [isDigit, Bool.and_eq_true, decide_eq_true_eq, UInt16.le_iff_toNat_le] at hd
  have hle : c.toNat ≤ 57 := hd.2
  simp only [isAlpha, Bool.or_eq_true, Bool.and_eq_true, decide_eq_true_eq] at h
  omega

theorem Absolute.eq_cons (h : Absolute w) :
    ∃ c d rest, w = c :: d :: rest ∧ c ≠ slash ∧ isDigit c = false ∧
      (d = colon ∧ isAlpha c.toNat = true ∨ c = bslash ∧ d = bslash) := by
  have hmark := h.mark
  rw [Bool.or_eq_true] at hmark
  rcases w with _ | ⟨c, _ | ⟨d, rest⟩⟩
  · exact absurd hmark (by decide)
  · have h1 : (0 : UInt16) ≠ colon := by decide
    have h2 : (0 : UInt16) ≠ bslash := by decide
    simp [driveMark, pairMark, h1, h2] at hmark
  · refine ⟨c, d, rest, rfl, ?_⟩
    rcases hmark with hmark | hmark
    · simp only [driveMark, Bool.and_eq_true, decide_eq_true_eq] at hmark
      obtain ⟨⟨hc, hd⟩, -⟩ := hmark
      have hc : isAlpha c.toNat = true := hc
      refine ⟨?_, ?_, Or.inl ⟨hd, hc⟩⟩
      · rintro rfl
        exact absurd hc (by decide)
      · exact isDigit_of_alpha hc
    · simp only [pairMark, Bool.and_eq_true, decide_eq_true_eq] at hmark
      obtain ⟨⟨hc, hd⟩, -⟩ := hmark
      have hc : c = bslash := hc
      have hd : d = bslash := hd
      subst hc hd
      exact ⟨by decide, by decide, Or.inr ⟨rfl, rfl⟩⟩

theorem markAt_slash (prev : Option UInt16) (rest : Str) : markAt prev (slash :: rest) = false := by
  have halpha : alphaAt (slash :: rest) 0 = false := rfl
  have hback : slash ≠ bslash := by decide
  simp [markAt, driveMark, pairMark, halpha, hback]

/-- **The last absolute segment** is where the scan ends. -/
theorem reroot_behind (h : Absolute w) (y : Str) : reroot (y ++ slash :: w) = w := by
  have hloop : ∀ (prev : Option UInt16) (best : Str), rerootLoop prev best (y ++ slash :: w) = w := by
    induction y with
    | nil =>
      intro prev best
      obtain ⟨c, d, rest, rfl, -⟩ := h.eq_cons
      have hmark : markAt (some slash) (c :: d :: rest) = true := by
        have := h.mark
        simp only [markAt, Option.all_some, isSlash_slash, Bool.true_and, decide_true]
        exact this
      rw [List.nil_append, rerootLoop, markAt_slash, rerootLoop, hmark]
      exact rerootLoop_noMarks _ _ _ h.last
    | cons c y ih => exact fun prev best => ih _ _
  exact hloop none _

theorem reroot_self (h : Absolute w) : reroot w = w := by
  obtain ⟨c, d, rest, rfl, -⟩ := h.eq_cons
  rw [reroot, rerootLoop, ite_self]
  exact rerootLoop_noMarks _ _ _ h.last

end Scan

/-! ## The tail is kept -/

section Rewrite

variable {t : Tree} {p m w : Str}

theorem under_iff : under m p = true ↔ ∃ q, p = m ++ q ∧ q.head?.all (· = slash) = true := by
  rw [under, Bool.and_eq_true, decide_eq_true_eq]
  constructor
  · rintro ⟨htake, hnext⟩
    refine ⟨p.drop m.length, ?_, hnext⟩
    conv_lhs => rw [← List.take_append_drop m.length p, htake]
  · rintro ⟨q, rfl, hq⟩
    rw [List.take_left, List.drop_left]
    exact ⟨rfl, hq⟩

/-- A name without colons and backslashes ends before an absolute segment. -/
theorem under_join (h : Absolute w) (hcolon : colon ∉ m) (hback : bslash ∉ m)
    (hlast : m.getLast? ≠ some slash) (hu : under m (p ++ slash :: w) = true) :
    ∃ q, p = m ++ q ∧ q.head?.all (· = slash) = true := by
  obtain ⟨tail, htail, hnext⟩ := under_iff.mp hu
  obtain ⟨c, d, rest, rfl, hc, -, hform⟩ := h.eq_cons
  rcases List.append_eq_append_iff.mp htail with ⟨a, rfl, ha⟩ | ⟨q, rfl, hq⟩
  · -- The name would reach into the separator or what follows it.
    rcases a with _ | ⟨x, _ | ⟨y, a⟩⟩
    · exact ⟨[], by simp, rfl⟩
    · obtain ⟨rfl, -⟩ := List.cons.inj ha
      exact absurd List.getLast?_concat hlast
    · obtain ⟨hy, htl⟩ := List.cons.inj (List.cons.inj ha).2
      rcases hform with ⟨rfl, -⟩ | ⟨rfl, rfl⟩
      · cases a with
        | nil =>
          have htl : colon :: rest = tail := htl
          rw [← htl] at hnext
          have hsep : decide (colon = slash) = true := hnext
          exact absurd hsep (by decide)
        | cons z a =>
          rw [← (List.cons.inj htl).1] at hcolon
          exact absurd (by simp) hcolon
      · rw [← hy] at hback
        exact absurd (by simp) hback
  · refine ⟨q, rfl, ?_⟩
    cases q with
    | nil => rfl
    | cons x q =>
      rw [hq] at hnext
      exact hnext

/-- An absolute segment is no process. -/
theorem process_absolute (h : Absolute w) {q : Str} (hq : q.dropWhile (· = slash) = []) :
    t.process (q ++ slash :: w) = none := by
  obtain ⟨c, d, rest, rfl, hc, hdigit, hform⟩ := h.eq_cons
  have hdrop : (q ++ slash :: c :: d :: rest).dropWhile (· = slash) = c :: d :: rest := by
    rw [List.dropWhile_append, hq]
    simp [hc]
  have hwidth : unitWidth c ≤ 63 := by
    unfold unitWidth
    split
    · decide
    · split
      · decide
      · split <;> decide
  have hd : d ≠ slash := by
    rcases hform with ⟨rfl, -⟩ | ⟨-, rfl⟩ <;> decide
  have hfirst : take8 63 ((c :: d :: rest).takeWhile (· ≠ slash)) =
      c :: take8 (63 - unitWidth c) (d :: rest.takeWhile (· ≠ slash)) := by
    rw [List.takeWhile_cons_of_pos (by simpa using hc), List.takeWhile_cons_of_pos (by simpa using hd),
      take8, if_pos hwidth]
  have hself : c :: take8 (63 - unitWidth c) (d :: rest.takeWhile (· ≠ slash)) ≠ selfName := by
    intro he
    have htail := (List.cons.inj he).2
    rw [take8] at htail
    split at htail
    · rcases hform with ⟨rfl, -⟩ | ⟨-, rfl⟩
      · exact absurd (List.cons.inj htail).1 (by decide)
      · exact absurd (List.cons.inj htail).1 (by decide)
    · cases htail
  rw [Tree.process, hdrop, hfirst]
  simp only [if_neg hself, List.head?_cons, Option.any_some, hdigit, Bool.false_eq_true, if_false]

/-- The tree keeps an absolute segment as it is, behind what it makes of the rest. -/
theorem suffix_join (q : Str) :
    ∃ x, ∀ w, Absolute w → t.suffix (q ++ slash :: w) = x ++ slash :: w := by
  cases hq : q.dropWhile (· = slash) with
  | nil =>
    refine ⟨q, fun w h => ?_⟩
    rw [Tree.suffix, process_absolute h hq]
    simp
  | cons c q' =>
    have hdrop : ∀ w, (q ++ slash :: w).dropWhile (· = slash) = c :: q' ++ slash :: w := by
      intro w
      rw [List.dropWhile_append, hq]
      rfl
    have hbehind : ∀ w : Str, (c :: q' ++ slash :: w).dropWhile (· ≠ slash) =
        (c :: q').dropWhile (· ≠ slash) ++ slash :: w := by
      intro w
      rw [List.dropWhile_append]
      split
      · rename_i hnil
        rw [List.isEmpty_iff.mp hnil]
        simp
      · rfl
    have hprocess : ∀ w, t.process (q ++ slash :: w) = t.process q := by
      intro w
      have hfirst : (c :: q' ++ slash :: w).takeWhile (· ≠ slash) =
          (c :: q').takeWhile (· ≠ slash) := by
        rw [List.takeWhile_append]
        split
        · rename_i hall
          have hnone : (slash :: w).takeWhile (· ≠ slash) = [] := by simp
          rw [hnone, List.append_nil]
          exact ((List.takeWhile_prefix _).eq_of_length hall).symm
        · rfl
      rw [Tree.process, Tree.process, hdrop, hq, hfirst]
    cases hp : t.process q with
    | none =>
      refine ⟨q, fun w _ => ?_⟩
      rw [Tree.suffix, hprocess, hp]
      simp
    | some pid =>
      refine ⟨slash :: (decimal pid ++ (c :: q').dropWhile (· ≠ slash)), fun w _ => ?_⟩
      rw [Tree.suffix, hprocess, hp]
      simp only
      rw [hdrop, hbehind, List.cons_append, List.append_assoc]

/-- What the names of the tree have in common. -/
def TreeName (m : Str) : Prop :=
  colon ∉ m ∧ bslash ∉ m ∧ m.getLast? ≠ some slash ∧ 3 ≤ m.length ∧
    slashAt m 0 = true ∧ slashAt m 1 = false ∧ slashAt m 2 = false

instance (m : Str) : Decidable (TreeName m) := inferInstanceAs (Decidable (_ ∧ _))

theorem treeName_proc : TreeName procName := by decide

theorem treeName_sys : ∀ e ∈ sysfs, TreeName e.1 := by decide

theorem under_slashes (hm : TreeName m) {s : Str} (hu : under m s = true) :
    slashAt s 0 = true ∧ slashAt s 1 = false ∧ slashAt s 2 = false := by
  obtain ⟨-, -, -, hlen, h0, h1, h2⟩ := hm
  obtain ⟨q, rfl, -⟩ := under_iff.mp hu
  have hat : ∀ i, i < 3 → slashAt (m ++ q) i = slashAt m i := by
    intro i hi
    rw [slashAt, slashAt, List.getD_append _ _ _ _ (by omega)]
  rw [hat 0 (by decide), hat 1 (by decide), hat 2 (by decide)]
  exact ⟨h0, h1, h2⟩

/-- Only a path that starts like one of the tree is rewritten. -/
theorem rewrite_none {s : Str} (h : slashAt s 0 = false ∨ slashAt s 1 = true ∨ slashAt s 2 = true) :
    t.rewrite s = none := by
  have hnot : ∀ m, TreeName m → ¬ under m s = true := by
    intro m hm hu
    obtain ⟨h0, h1, h2⟩ := under_slashes hm hu
    simp [h0, h1, h2] at h
  have hsys : sysfs.find? (fun e => under e.1 s) = none :=
    List.find?_eq_none.mpr fun e he => hnot e.1 (treeName_sys e he)
  rw [Tree.rewrite, hsys]
  simp only [if_neg (hnot procName treeName_proc)]

theorem take8_of_fits {n : Nat} {s : Str} (h : width8 s ≤ n) : take8 n s = s := by
  induction s generalizing n with
  | nil => rfl
  | cons c s ih =>
    simp only [width8, List.map_cons, List.sum_cons] at h
    rw [take8, if_pos (by omega), ih]
    simp only [width8]
    omega

/-- What follows the cut does not matter. -/
theorem take8_append {n : Nat} {s : Str} (h : n < width8 s) (u : Str) :
    take8 n (s ++ u) = take8 n s := by
  induction s generalizing n with
  | nil => exact absurd h (Nat.not_lt_zero n)
  | cons c s ih =>
    simp only [width8, List.map_cons, List.sum_cons] at h
    rw [List.cons_append, take8, take8]
    split
    · rw [ih]
      simp only [width8]
      omega
    · rfl

/-- A path under `/proc` and an absolute segment behind it. -/
theorem rewrite_proc (h : Absolute w) {q : Str} (hp : p = procName ++ q)
    (hq : q.head?.all (· = slash) = true) :
    t.rewrite (p ++ slash :: w) = t.root.bind fun root =>
      if width8 root + min (width8 (t.suffix (q ++ slash :: w))) 299 < 600 then
        some (root ++ take8 299 (t.suffix (q ++ slash :: w))) else none := by
  have hsys : sysfs.find? (fun e => under e.1 (p ++ slash :: w)) = none := by
    refine List.find?_eq_none.mpr fun e he hu => ?_
    obtain ⟨hcolon, hback, hlast, -⟩ := treeName_sys e he
    obtain ⟨q', hq', -⟩ := under_join h hcolon hback hlast hu
    rw [hp] at hq'
    have hsecond : ∀ e ∈ sysfs, e.1.getD 1 0 ≠ procName.getD 1 0 ∧ 1 < e.1.length := by decide
    have heq : (procName ++ q).getD 1 0 = (e.1 ++ q').getD 1 0 := by rw [hq']
    rw [List.getD_append _ _ _ _ (by decide), List.getD_append _ _ _ _ (hsecond e he).2] at heq
    exact (hsecond e he).1 heq.symm
  have hunder : under procName (p ++ slash :: w) = true := by
    refine under_iff.mpr ⟨q ++ slash :: w, by rw [hp, List.append_assoc], ?_⟩
    cases q with
    | nil => rfl
    | cons c q => exact hq
  have hdrop : (p ++ slash :: w).drop procName.length = q ++ slash :: w := by
    rw [hp, List.append_assoc, List.drop_left]
  rw [Tree.rewrite, hsys]
  simp only [if_pos hunder, hdrop]

/-- **Under the rewrite** an absolute segment stays the last one. -/
theorem reroot_rewrite (h : Absolute w) (hkept : t.Kept p w) :
    reroot ((t.rewrite (p ++ slash :: w)).getD (p ++ slash :: w)) = w := by
  by_cases hproc : under procName p = true
  · obtain ⟨q, hp, hq⟩ := under_iff.mp hproc
    obtain ⟨x, hx⟩ := suffix_join (t := t) q
    have hkept := hkept hproc
    rw [rewrite_proc h hp hq]
    rw [hp, List.drop_left] at hkept
    cases hroot : t.root with
    | none => exact reroot_behind h p
    | some root =>
      simp only [Option.bind_some]
      split
      · rename_i hfits
        have hwidth : width8 (t.suffix (q ++ slash :: w)) ≤ 299 := by
          by_cases hlong : width8 root ≤ 300
          · exact hkept root hroot hlong
          · omega
        rw [take8_of_fits hwidth, hx w h, Option.getD_some, ← List.append_assoc]
        exact reroot_behind h _
      · exact reroot_behind h p
  · have hunder : ¬ under procName (p ++ slash :: w) = true := by
      intro hu
      obtain ⟨q, rfl, hq⟩ := under_join h (by decide) (by decide) (by decide) hu
      exact hproc (under_iff.mpr ⟨q, rfl, hq⟩)
    rw [Tree.rewrite]
    cases hsys : sysfs.find? (fun e => under e.1 (p ++ slash :: w)) with
    | none =>
      simp only [if_neg hunder]
      exact reroot_behind h p
    | some e =>
      obtain ⟨m, dir⟩ := e
      obtain ⟨hcolon, hback, hlast, -⟩ := treeName_sys _ (List.mem_of_find?_eq_some hsys)
      have hu : under m (p ++ slash :: w) = true := by simpa using List.find?_some hsys
      obtain ⟨q, rfl, -⟩ := under_join h hcolon hback hlast hu
      have hdrop : (m ++ q ++ slash :: w).drop m.length = q ++ slash :: w := by
        rw [List.append_assoc, List.drop_left]
      have hne : q ++ slash :: w ≠ [] := by simp
      simp only [hdrop, if_neg hne]
      cases t.root with
      | none => exact reroot_behind h (m ++ q)
      | some root =>
        simp only [Option.bind_some]
        split
        · have hout : root ++ slash :: (dir ++ (q ++ slash :: w)) =
              (root ++ slash :: (dir ++ q)) ++ slash :: w := by simp
          rw [hout, Option.getD_some]
          exact reroot_behind h _
        · exact reroot_behind h (m ++ q)

end Rewrite

/-! ## The conversion -/

/-- The conversion with this rewrite in it. -/
def Env.withTree (env : Env) (t : Tree) : Env :=
  { env with procfs := t.rewrite, procfs_none := fun _ => rewrite_none }

section Convert

variable {env : Env} {t : Tree} {p w : Str}

theorem Absolute.slashes (h : Absolute w) : slashAt w 0 = false ∨ slashAt w 1 = true := by
  obtain ⟨c, d, rest, rfl, -, -, ⟨-, hc⟩ | ⟨-, rfl⟩⟩ := h.eq_cons
  · exact Or.inl (Env.isSlash_of_alpha hc)
  · exact Or.inr isSlash_bslash

/-- The conversion of a path that is scanned to an absolute segment. -/
theorem mkntpath2From_scanned (fuel : Nat) (roots : Roots) {path : Str} (h : Absolute w)
    (hscan : reroot (((env.withTree t).procfs path).getD path) = w) :
    (env.withTree t).mkntpath2From (fuel + 1) roots path =
      (env.withTree t).mkntpath2From (fuel + 1) roots w := by
  have hnone : (env.withTree t).procfs w = none := by
    apply rewrite_none
    rcases h.slashes with h | h
    · exact Or.inl h
    · exact Or.inr (Or.inl h)
  rw [Env.mkntpath2From, Env.mkntpath2From, hscan, hnone, Option.getD_none, reroot_self h]

/-- The file `C:\aaa...`, with `n` letters. -/
def manyAs (n : Nat) : Str := 0x43 :: colon :: bslash :: List.replicate n 0x61

theorem absolute_manyAs (n : Nat) : Absolute (manyAs n) where
  mark := rfl
  last := by
    have hcolon : markAt (some 0x43) (colon :: bslash :: List.replicate n 0x61) = false := rfl
    have hback : markAt (some colon) (bslash :: List.replicate n 0x61) = false := rfl
    rw [manyAs, List.head?_cons, List.tail_cons, noMarks, noMarks, hcolon, hback]
    refine noMarks_plain ?_ ?_
    · exact fun h => absurd (List.eq_of_mem_replicate h) (by decide)
    · exact fun h => absurd (List.eq_of_mem_replicate h) (by decide)

theorem mkntpath2_manyAs (roots : Roots) {n : Nat} (hlow : 300 ≤ n) (hhigh : n < 1000) :
    (env.mkntpath2 roots (manyAs n)).2 = .ok (drivePre 0x43 ++ List.replicate n 0x61) := by
  have h := absolute_manyAs n
  have h0 : slashAt (manyAs n) 0 = false := rfl
  have hproc : env.procfs (manyAs n) = none := env.procfs_none _ (Or.inl h0)
  have hrel : isRelative (manyAs n) = false := by
    have halpha : alphaAt (manyAs n) 0 = true := rfl
    have hcolon : decide ((manyAs n).getD 1 0 = colon) = true := rfl
    rw [isRelative, halpha, hcolon, Bool.and_self, Bool.not_true, Bool.and_false]
  have hcol : isCollapsedUnc roots (manyAs n) = false := by simp [isCollapsedUnc, h0]
  have hdivert : env.divert (manyAs n) = manyAs n := by simp [Env.divert, h0]
  have hmark : driveMark (manyAs n) = true := rfl
  have hhead : env.head (manyAs n) = .ok ⟨drivePre 0x43, List.replicate n 0x61,
      min 32767 env.pathMax - 7, none⟩ := by
    simp only [Env.head, h0, hmark, Bool.false_and, Bool.false_eq_true, if_false, if_true]
    rfl
  have hroom : ¬ (List.replicate n (0x61 : UInt16)).length ≥ min 32767 env.pathMax - 7 - 1 := by
    have := env.pathMax_ge
    rw [List.length_replicate]
    omega
  have hletter : ∀ x ∈ List.replicate n (0x61 : UInt16), x = 0x61 :=
    fun x => List.eq_of_mem_replicate
  have hproper : Proper (List.replicate n 0x61) := by
    refine ⟨?_, ?_, ?_, ?_⟩
    · exact List.length_pos_iff.mp (by rw [List.length_replicate]; omega)
    · exact fun x hx => hletter x hx ▸ by decide
    · exact fun he => absurd (congrArg List.length he) (by simp; omega)
    · exact fun he => absurd (congrArg List.length he) (by simp [dotdot]; omega)
  have hnorm : normntpath (List.replicate n 0x61) = List.replicate n 0x61 := by
    have hloop : normLoop (List.replicate n 0x61 ++ []) [] = _ := normLoop_proper hproper
      (readable_of_plain hproper.noSlash fun x hx => hletter x hx ▸ by decide)
    rw [List.append_nil, List.append_nil] at hloop
    rw [normntpath, hloop]
    exact List.reverse_reverse _
  have hdown : downgrade 244 (drivePre 0x43 ++ List.replicate n 0x61) =
      drivePre 0x43 ++ List.replicate n 0x61 := by
    rw [downgrade_drive, if_neg]
    rw [List.length_append, List.length_replicate]
    omega
  rw [Env.mkntpath2, Env.mkntpath2From, hproc, Option.getD_none, reroot_self h]
  simp only [hrel, h0, hcol, hdivert, Bool.false_and, Bool.false_eq_true, if_false]
  rw [env.finish_flat hhead (by simp [drivePre, longMark]), if_neg hroom, hnorm, hdown]

/-- A path that is cut does not say how long it was. -/
theorem cut_manyAs {q root : Str} (hroot : t.root = some root) (hlong : width8 root ≤ 300)
    (hq : q.head?.all (· = slash) = true) (hp : p = procName ++ q) :
    ∃ r, ∀ n, 300 ≤ n → t.rewrite (p ++ slash :: manyAs n) = some r := by
  obtain ⟨x, hx⟩ := suffix_join (t := t) q
  have hwidth : ∀ n, 300 ≤ n → 299 < width8 (x ++ slash :: manyAs n) := by
    intro n hn
    refine Nat.lt_of_lt_of_le ?_ (length_le_width8 _)
    simp only [manyAs, List.length_append, List.length_cons, List.length_replicate]
    omega
  refine ⟨root ++ take8 299 (x ++ slash :: manyAs 300), fun n hn => ?_⟩
  have hsplit : x ++ slash :: manyAs n = x ++ slash :: manyAs 300 ++ List.replicate (n - 300) 0x61 := by
    have hrep : List.replicate n (0x61 : UInt16) =
        List.replicate 300 0x61 ++ List.replicate (n - 300) 0x61 := by
      rw [List.replicate_append_replicate, Nat.add_sub_cancel' hn]
    simp only [manyAs, hrep, List.append_assoc, List.cons_append]
  rw [rewrite_proc (absolute_manyAs n) hp hq, hroot, hx _ (absolute_manyAs n), Option.bind_some, if_pos,
    hsplit, take8_append (hwidth 300 (Nat.le_refl 300))]
  have := hwidth n hn
  omega

end Convert

/-- **The re-rooting law**: an absolute segment behind any path is converted as it is on its
own, unless the tree cuts it. Behind a path that is cut once, not every segment is; and a path
without a segment is not changed. -/
theorem reroot_law_iff (env : Env) (t : Tree) (p : Str) :
    (∀ w, Absolute w → t.Kept p w → ∀ roots,
      (env.withTree t).mkntpath2 roots (p ++ slash :: w) = (env.withTree t).mkntpath2 roots w) ∧
    ((∀ w, Absolute w → ∀ roots,
      (env.withTree t).mkntpath2 roots (p ++ slash :: w) = (env.withTree t).mkntpath2 roots w) ↔
      ∀ w, Absolute w → t.Kept p w) ∧
    ∀ path, noMarks none path = true → reroot path = path := by
  have hlaw : ∀ w, Absolute w → t.Kept p w → ∀ roots,
      (env.withTree t).mkntpath2 roots (p ++ slash :: w) = (env.withTree t).mkntpath2 roots w :=
    fun w h hkept roots => mkntpath2From_scanned 2 roots h (reroot_rewrite h hkept)
  refine ⟨hlaw, ⟨fun hall w h => ?_, fun hkept w h => hlaw w h (hkept w h)⟩,
    fun path => reroot_noMarks⟩
  intro hproc root hroot hlong
  obtain ⟨q, hp, hq⟩ := under_iff.mp hproc
  obtain ⟨r, hr⟩ := cut_manyAs hroot hlong hq hp
  -- Two files that are cut to the same path cannot both come out right.
  have hsame : (env.withTree t).mkntpath2 [] (manyAs 300) = (env.withTree t).mkntpath2 [] (manyAs 301) := by
    rw [← hall _ (absolute_manyAs 300), ← hall _ (absolute_manyAs 301)]
    have hread : ∀ n, 300 ≤ n → ((env.withTree t).procfs (p ++ slash :: manyAs n)).getD
        (p ++ slash :: manyAs n) = r := by
      intro n hn
      show (t.rewrite (p ++ slash :: manyAs n)).getD _ = r
      rw [hr n hn, Option.getD_some]
    rw [Env.mkntpath2, Env.mkntpath2, Env.mkntpath2From, Env.mkntpath2From, hread 300 (by decide),
      hread 301 (by decide)]
  have htext := congrArg Prod.snd hsame
  rw [mkntpath2_manyAs [] (by decide) (by decide), mkntpath2_manyAs [] (by decide) (by decide)] at htext
  have hlen := congrArg List.length (Except.ok.inj htext)
  rw [List.length_append, List.length_append, List.length_replicate, List.length_replicate] at hlen
  omega

/-- The tree of a process in `C:/t`. -/
def Tree.temp : Tree where
  root := some (ascii ['C', ':', '/', 't', '/', 'p'])
  selfPid := 7
  getpid := 7

/-- A file with a name of 300 letters behind `/proc` loses its end. -/
theorem name_cut_behind_proc :
    Absolute (manyAs 300) ∧
    ((Env.bare.withTree .temp).mkntpath2 [] (procName ++ slash :: manyAs 300)).2 =
      .ok (drivePre 0x43 ++ List.replicate 295 0x61) ∧
    ((Env.bare.withTree .temp).mkntpath2 [] (manyAs 300)).2 =
      .ok (drivePre 0x43 ++ List.replicate 300 0x61) := by
  refine ⟨absolute_manyAs 300, ?_⟩
  decide +kernel

end ApeShim.Nt
