import ApeShim.Nt.LongPaths
import ApeShim.Procfs.Grammar

/-!
The path rewrite in front of `__mkntpath2` (`__ape_shim_procfs_rewrite`): where in the skeleton
under `pc_root` a path of /proc or of a slice of /sys comes out, once its dots are resolved, and
whether all of it does.
-/

namespace ApeShim.Procfs.Rewrite
open Walk Nt

/-! ## The rewrite -/

/-- `g_sysfs`: the prefix of a slice and its directory. -/
def slices : List (Text × Text) :=
  [("/sys/class/net", "sysfs-net"), ("/sys/class/power_supply", "sysfs-power"),
    ("/sys/devices/system/cpu", "sysfs-cpu"), ("/sys/class/dmi", "sysfs-dmi"),
    ("/sys/devices/virtual/dmi", "sysfs-dmi")].map fun s => (s.1.toList, s.2.toList)

/-- `pc_sysfs_match` -/
def sysfsMatch (path : Text) : Option (Text × Text) :=
  slices.find? fun s => s.1.isPrefixOf path &&
    (path.drop s.1.length = [] || (path.drop s.1.length).head? = some '/')

/-- `getpid` and `pfs_self_pid`, which NT tells apart. No process of NT has the number 0. -/
structure Pids where
  getpid : UInt32
  self : UInt32
  self_ne_zero : self ≠ 0

/-- `pc_parse` behind the first component. -/
def Pids.parseRest (p : Pids) (first rest : Text) : Node :=
  if first = "self".toList then parsePid true p.self rest
  else if first.head?.any Char.isDigit then
    if strtoul first = p.getpid then parsePid true p.self rest
    else parsePid false (strtoul first) rest
  else if first = "net".toList then
    if rest = [] then { kind := .netDir } else { kind := .netFile, name := comp 64 rest }
  else if first = "sys".toList then { kind := .sys, rest := rest.take 199 }
  else { kind := if rest = [] then .top else .other, name := first }

/-- `pc_parse`, of what follows "/proc". -/
def Pids.pcParse (p : Pids) (sub : Text) : Node :=
  if strip sub = [] then { kind := .root }
  else p.parseRest (comp 64 (strip sub)) (after (strip sub))

/-- What `pc_phys_suffix` prints. -/
def physText (n : Node) (sub : Text) : Text :=
  if n.pid ≠ 0 ∨ n.wasSelf = true then '/' :: decimal n.pid.toNat ++ behind (strip sub)
  else if sub = [] then ['/'] else sub

/-- `pc_phys_suffix`, into a buffer of that many bytes. -/
def physSuffix (n : Node) (sub : Text) (cap : Nat) : Text := (physText n sub).take (cap - 1)

/-- The last `snprintf`, and whether its output fits. -/
def fit (outsz : Nat) (out : Text) : Option Text :=
  if 0 < out.length ∧ out.length < outsz then some out else none

/-- `__ape_shim_procfs_rewrite`. `root` is `pc_root`, where `pc_ensure_root` has made one. -/
def rewrite (windows busy : Bool) (p : Pids) (root : Option Text) (path : Text) (outsz : Nat) :
    Option Text :=
  if windows = false ∨ busy = true then none
  else
    match sysfsMatch path with
    | some (pre, dir) =>
        let rest := path.drop pre.length
        root.bind fun root => fit outsz (root ++ '/' :: dir ++ if rest = [] then ['/'] else rest)
    | none =>
        match procSub path with
        | none => none
        | some sub => root.bind fun root => fit outsz (root ++ physSuffix (p.pcParse sub) sub 300)

/-- Where both numbers are one, this is the parser of `Procfs.Tree`. -/
theorem pcParse_eq (h : Host) (p : Pids) (hget : p.getpid = h.getpid) (hself : p.self = h.selfPid)
    (sub : Text) : p.pcParse sub = h.pcParse sub := by
  rw [Pids.pcParse, Host.pcParse, Pids.parseRest, Host.parseRest, hget, hself]

/-! ## Where a path belongs -/

/-- The components, by `/` only. -/
def pieces (s : Text) : List Text := (s.splitOnP (· = '/')).filter (· ≠ [])

/-- The pid that a first component is replaced by, if it is. -/
def Pids.pidOf (p : Pids) (c : Text) : Option UInt32 :=
  if c = "self".toList then some p.self
  else if c.head?.any Char.isDigit then
    if strtoul c = p.getpid then some p.self
    else if strtoul c = 0 then none
    else some (strtoul c)
  else none

/-- A first component, an alias resolved. -/
def Pids.named (p : Pids) (c : Text) : Text :=
  match p.pidOf c with
  | some pid => decimal pid.toNat
  | none => c

def Pids.aliased (p : Pids) : List Text → List Text
  | [] => []
  | c :: cs => p.named c :: cs

/-- The components that belong below `pc_root`: all of the path's own, the alias resolved, or
the slice's directory in front of all that follow the slice. -/
def Pids.places (p : Pids) (path : Text) : List Text :=
  match sysfsMatch path with
  | some (pre, dir) => dir :: pieces (path.drop pre.length)
  | none => p.aliased (pieces (path.drop 5))

/-- `pc_root`: its volume, as `__mkntpath2` takes it off a path, and the path behind it. -/
structure Root where
  vol : Text
  dir : Text

def Root.path (r : Root) : Text := r.vol ++ r.dir

/-- Below `pc_root`, or `pc_root` itself, once the dots and the separators are resolved. -/
def Root.Inside (r : Root) (out : Text) : Prop :=
  ∃ rest, out = r.vol ++ rest ∧
    resolved (components (ascii r.dir)) <+: resolved (components (ascii rest))

/-- The complete image of a path. -/
def Pids.Complete (p : Pids) (r : Root) (path out : Text) : Prop :=
  pieces out = pieces r.path ++ p.places path

/-- The moves of components, which can still have a `\` inside. -/
def walk (cs : List Text) : List (Move Str) := cs.flatMap fun c => moves (ascii c)

/-- The components stay in the directory: they go up no further than they enter names, or the
names entered behind the last climb out of it are again the directory's own last names. -/
def Stays (dir : Text) (cs : List Text) : Prop :=
  ((clamp [] (moves (ascii dir))).take (net (walk cs)).1).reverse <+: (net (walk cs)).2.reverse

instance (dir : Text) (cs : List Text) : Decidable (Stays dir cs) :=
  inferInstanceAs (Decidable (_ <+: _))

/-- No buffer cuts a path of /proc: a number at its front reads in 63 bytes as it does in full,
and 299 bytes hold what is printed, up to slashes at its end. -/
def Pids.Fits (p : Pids) (path : Text) : Prop :=
  sysfsMatch path = none →
    p.pidOf ((word (strip (path.drop 5))).take 63) = p.pidOf (word (strip (path.drop 5))) ∧
      ∀ c ∈ (physText (p.pcParse (path.drop 5)) (path.drop 5)).drop 299, c = '/'

/-! ## Components -/

section Pieces

variable {s t u w : Text}

theorem pieces_append (s t : Text) : pieces (s ++ '/' :: t) = pieces s ++ pieces t := by
  rw [pieces, List.splitOnP_append_cons s t (by decide), List.filter_append]
  rfl

theorem pieces_slash (s : Text) : pieces ('/' :: s) = pieces s := pieces_append [] s

theorem pieces_word (h : '/' ∉ w) (hne : w ≠ []) : pieces w = [w] := by
  have hsplit : w.splitOnP (· = '/') = [w] := by
    refine List.splitOnP_eq_singleton fun x hx => ?_
    rw [decide_eq_false_iff_not]
    rintro rfl
    exact h hx
  rw [pieces, hsplit, List.filter_singleton, decide_eq_true hne]
  rfl

theorem pieces_strip (s : Text) : pieces (strip s) = pieces s := by
  induction s with
  | nil => rfl
  | cons c s ih =>
    by_cases hc : c = '/'
    · subst hc
      rw [strip_slash, ih, pieces_slash]
    · rw [strip_of_head (by simpa using hc)]

theorem pieces_front (h : '/' ∉ w) (hne : w ≠ []) (ht : t = [] ∨ ∃ r, t = '/' :: r) :
    pieces (w ++ t) = w :: pieces t := by
  rcases ht with rfl | ⟨r, rfl⟩
  · rw [List.append_nil]
    exact pieces_word h hne
  · rw [pieces_append, pieces_slash, pieces_word h hne]
    rfl

theorem behind_front (u : Text) : behind u = [] ∨ ∃ r, behind u = '/' :: r := by
  rcases behind_shape u with ⟨hb, -⟩ | ⟨r, hb, -⟩
  · exact Or.inl hb
  · exact Or.inr ⟨r, hb⟩

theorem take_front (h : t = [] ∨ ∃ r, t = '/' :: r) (n : Nat) :
    t.take n = [] ∨ ∃ r, t.take n = '/' :: r := by
  rcases h with rfl | ⟨r, rfl⟩
  · exact Or.inl List.take_nil
  · cases n with
    | zero => exact Or.inl rfl
    | succ n => exact Or.inr ⟨r.take n, rfl⟩

theorem pieces_cons (hhead : u.head? ≠ some '/') (hu : u ≠ []) :
    pieces u = word u :: pieces (behind u) := by
  conv_lhs => rw [← word_append_behind u]
  exact pieces_front (noSlash_word u) (word_ne_nil hhead hu) (behind_front u)

theorem pieces_slashes (h : ∀ c ∈ t, c = '/') : pieces t = [] := by
  induction t with
  | nil => rfl
  | cons c t ih =>
    rw [List.forall_mem_cons] at h
    rw [h.1, pieces_slash]
    exact ih h.2

theorem flatten_word (h : ∀ x ∈ w, decide (x = '/') = false) :
    (pieces w).flatten = w ∧ w.filter (· ≠ '/') = w := by
  constructor
  · by_cases hne : w = []
    · subst hne
      rfl
    · rw [pieces_word (fun hx => absurd (h _ hx) (by decide)) hne, List.flatten_singleton]
  · rw [List.filter_eq_self]
    intro x hx
    simpa using h x hx

theorem flatten_pieces (s : Text) : (pieces s).flatten = s.filter (· ≠ '/') := by
  induction s using pieces_induction (· = '/') with
  | last w h =>
    obtain ⟨hflat, hfilter⟩ := flatten_word h
    rw [hflat, hfilter]
  | step w c s h hc ih =>
    obtain rfl : c = '/' := of_decide_eq_true hc
    obtain ⟨hflat, hfilter⟩ := flatten_word h
    rw [pieces_append, List.flatten_append, hflat, ih, List.filter_append, hfilter,
      List.filter_cons_of_neg (by decide)]

/-- Only slashes at the end can be cut off unseen. -/
theorem pieces_take_iff (n : Nat) : pieces (s.take n) = pieces s ↔ ∀ c ∈ s.drop n, c = '/' := by
  constructor
  · intro hp
    have hflat := congrArg List.flatten hp
    rw [flatten_pieces, flatten_pieces] at hflat
    conv_rhs at hflat => rw [← List.take_append_drop n s, List.filter_append]
    rw [List.self_eq_append_right, List.filter_eq_nil_iff] at hflat
    simpa using hflat
  · intro hd
    conv_rhs => rw [← List.take_append_drop n s]
    cases hdrop : s.drop n with
    | nil => rw [List.append_nil]
    | cons c r =>
      rw [hdrop, List.forall_mem_cons] at hd
      rw [hd.1, pieces_append, pieces_slashes hd.2, List.append_nil]

/-- What a cut leaves, behind the slashes. -/
theorem pieces_take_strip (s : Text) (n : Nat) :
    ∃ m, pieces (s.take n) = pieces ((strip s).take m) := by
  induction s generalizing n with
  | nil => exact ⟨0, by rw [List.take_nil]; rfl⟩
  | cons c s ih =>
    by_cases hc : c = '/'
    · subst hc
      rw [strip_slash]
      cases n with
      | zero => exact ⟨0, rfl⟩
      | succ n =>
        rw [List.take_succ_cons, pieces_slash]
        exact ih n
    · rw [strip_of_head (by simpa using hc)]
      exact ⟨n, rfl⟩

theorem clamp_walk (st : List Str) (t : Text) :
    clamp st (moves (ascii t)) = clamp st (walk (pieces t)) := by
  have hword : ∀ w : Text, (∀ x ∈ w, decide (x = '/') = false) → ∀ st : List Str,
      clamp st (moves (ascii w)) = clamp st (walk (pieces w)) := by
    intro w h st
    by_cases hne : w = []
    · subst hne
      rfl
    · rw [pieces_word (fun hx => absurd (h _ hx) (by decide)) hne, walk, List.flatMap_singleton]
  induction t using pieces_induction (· = '/') generalizing st with
  | last w h => exact hword w h st
  | step w c t h hc ih =>
    obtain rfl : c = '/' := of_decide_eq_true hc
    have hmoves : moves (ascii (w ++ '/' :: t)) = moves (ascii w) ++ moves (ascii t) := by
      rw [ascii, List.map_append, List.map_cons, moves, components_append _ (by decide),
        List.map_append]
      rfl
    rw [hmoves, clamp_append, hword w h, ih, pieces_append, walk, walk, walk, List.flatMap_append,
      clamp_append]

end Pieces

/-! ## Numbers in a short buffer -/

section Numbers

variable {p : Pids} {c ds sub : Text} {q : UInt32} {k : Nat}

theorem pidOf_ne_zero (h : p.pidOf c = some q) : q ≠ 0 := by
  rw [Pids.pidOf] at h
  split at h
  · exact Option.some.inj h ▸ p.self_ne_zero
  · split at h
    · split at h
      · exact Option.some.inj h ▸ p.self_ne_zero
      · split at h
        · cases h
        · rename_i hne
          exact Option.some.inj h ▸ hne
    · cases h

theorem decimal_ne_nil (n : Nat) : decimal n ≠ [] := Nat.toDigits_ne_nil

/-- A number with digits behind it is too large. -/
theorem strtoul_long (hds : ∀ x ∈ ds, x.isDigit = true) (hlen : ds.length = 63)
    (hk : ds.take k = decimal q.toNat) (hq : q ≠ 0) : strtoul ds ≠ 0 := by
  have hshort : (ds.take k).length ≤ 10 := hk ▸ decimal_length q
  have hdigits : ds.takeWhile Char.isDigit = ds := List.takeWhile_eq_self_iff.mpr hds
  have hpos : 0 < q.toNat := by
    rw [Nat.pos_iff_ne_zero]
    exact fun h => hq (UInt32.toNat_inj.mp h)
  have hvalue : Nat.ofDigitChars 10 ds 0 =
      10 ^ (ds.drop k).length * q.toNat + Nat.ofDigitChars 10 (ds.drop k) 0 := by
    conv_lhs => rw [← List.take_append_drop k ds]
    rw [Nat.ofDigitChars_append, hk, decimal, Nat.ofDigitChars_ten_toDigits,
      Nat.ofDigitChars_eq_ofDigitChars_zero]
  have hpow : 10 ^ 53 ≤ 10 ^ (ds.drop k).length := by
    refine Nat.pow_le_pow_right (by decide) ?_
    rw [List.length_take] at hshort
    rw [List.length_drop]
    omega
  have hlarge : 2 ^ 64 - 1 ≤ Nat.ofDigitChars 10 ds 0 := by
    have hmul := Nat.mul_le_mul hpow hpos
    rw [hvalue]
    omega
  rw [strtoul, hdigits, Nat.min_eq_right hlarge]
  decide

theorem strtoul_takeWhile (c : Text) : strtoul (c.takeWhile Char.isDigit) = strtoul c := by
  rw [strtoul, strtoul, List.takeWhile_takeWhile]
  simp

/-- A number that is lost by the cut is not spelled by its first digits either. -/
theorem pidOf_cut (hcut : p.pidOf (c.take 63) = none) (hq : p.pidOf c = some q) :
    c.take k ≠ decimal q.toNat := by
  intro hk
  have hne := pidOf_ne_zero hq
  have hshort : (c.take k).length ≤ 10 := hk ▸ decimal_length q
  have hdigits : (decimal q.toNat).takeWhile Char.isDigit = decimal q.toNat :=
    List.takeWhile_eq_self_iff.mpr fun x hx => Nat.isDigit_of_mem_toDigits (by decide) (by decide) hx
  have hhead : c.head?.any Char.isDigit = true := by
    rw [← List.take_append_drop k c, hk, List.head?_append_of_ne_nil _ (decimal_ne_nil _)]
    exact decimal_head _
  have hself : ∀ w : Text, w.head?.any Char.isDigit = true → w ≠ "self".toList := by
    rintro w hw rfl
    cases hw
  have hhead' : (c.take 63).head?.any Char.isDigit = true := by rw [head_take, hhead]
  have hread := strtoul_takeWhile (c.take 63)
  rw [← List.take_takeWhile] at hread
  rw [Pids.pidOf, if_neg (hself _ hhead'), if_pos hhead', ← hread] at hcut
  rw [Pids.pidOf, if_neg (hself _ hhead), if_pos hhead, ← strtoul_takeWhile] at hq
  split at hcut
  · cases hcut
  · rename_i hget
    split at hcut
    · rename_i hzero
      by_cases hlong : (c.takeWhile Char.isDigit).length < 63
      · rw [List.take_of_length_le hlong.le] at hzero hget
        rw [if_neg hget, if_pos hzero] at hq
        cases hq
      · have hle := (List.takeWhile_sublist Char.isDigit (l := c)).length_le
        rw [List.length_take] at hshort
        refine strtoul_long (k := k) (q := q) ?_ ?_ ?_ hne hzero
        · exact fun x hx => List.mem_takeWhile_imp (List.mem_of_mem_take hx)
        · rw [List.length_take]
          omega
        · rw [List.take_take, Nat.min_eq_left (by omega), List.take_takeWhile, hk, hdigits]
    · cases hcut

end Numbers

/-! ## What comes out -/

section Out

variable {p : Pids} {r : Root} {path sub t out : Text}

theorem parsePid_pid (w : Bool) (pid : UInt32) (rest : Text) : (parsePid w pid rest).pid = pid := by
  rw [parsePid]
  split <;> rfl

theorem parsePid_wasSelf (w : Bool) (pid : UInt32) (rest : Text) :
    (parsePid w pid rest).wasSelf = w := by
  rw [parsePid]
  split <;> rfl

/-- The first component, cut to 63 bytes, decides what is printed. -/
theorem physText_eq (hu : strip sub ≠ []) : physText (p.pcParse sub) sub =
    match p.pidOf ((word (strip sub)).take 63) with
    | some q => '/' :: decimal q.toNat ++ behind (strip sub)
    | none => sub := by
  have hne : sub ≠ [] := by
    rintro rfl
    exact hu rfl
  rw [Pids.pcParse, if_neg hu]
  have hcomp : comp 64 (strip sub) = (word (strip sub)).take 63 := rfl
  rw [hcomp]
  generalize (word (strip sub)).take 63 = c
  rw [Pids.parseRest, Pids.pidOf]
  by_cases hself : c = "self".toList
  · rw [if_pos hself, if_pos hself, physText, parsePid_pid, parsePid_wasSelf, if_pos (Or.inr rfl)]
  · rw [if_neg hself, if_neg hself]
    by_cases hdigit : c.head?.any Char.isDigit = true
    · rw [if_pos hdigit, if_pos hdigit]
      by_cases hget : strtoul c = p.getpid
      · rw [if_pos hget, if_pos hget, physText, parsePid_pid, parsePid_wasSelf, if_pos (Or.inr rfl)]
      · rw [if_neg hget, if_neg hget, physText, parsePid_pid, parsePid_wasSelf]
        by_cases hzero : strtoul c = 0
        · rw [if_pos hzero, hzero, if_neg (by decide), if_neg hne]
        · rw [if_neg hzero, if_pos (Or.inl hzero)]
    · rw [if_neg hdigit, if_neg hdigit]
      have hnone : ∀ n : Node, n.pid = 0 → n.wasSelf = false → physText n sub = sub := by
        intro n hpid hwas
        rw [physText, hpid, hwas, if_neg (by decide), if_neg hne]
      split
      · split
        · exact hnone _ rfl rfl
        · exact hnone _ rfl rfl
      · split
        · exact hnone _ rfl rfl
        · exact hnone _ rfl rfl

/-- A number that the cut changes comes out as another component. -/
theorem misread (hu : strip sub ≠ [])
    (hread : p.pidOf ((word (strip sub)).take 63) ≠ p.pidOf (word (strip sub))) :
    pieces ((physText (p.pcParse sub) sub).take 299) ≠
      p.named (word (strip sub)) :: pieces (behind (strip sub)) := by
  have hlong : 63 < (word (strip sub)).length := by
    by_contra hle
    rw [List.take_of_length_le (by omega)] at hread
    exact hread rfl
  have hfront := behind_front (strip sub)
  have happend := word_append_behind (strip sub)
  have hslash := noSlash_word (strip sub)
  rw [physText_eq hu]
  generalize behind (strip sub) = b at hfront happend ⊢
  generalize word (strip sub) = c at hread hlong happend hslash ⊢
  cases hcut : p.pidOf (c.take 63) with
  | some q =>
    have hlen := decimal_length q
    simp only [List.cons_append, List.take_succ_cons]
    rw [pieces_slash, List.take_append, List.take_of_length_le (by omega),
      pieces_front (noSlash_decimal _) (decimal_ne_nil _) (take_front hfront _)]
    intro heq
    have hname := (List.cons.inj heq).1
    rw [Pids.named] at hname
    cases hq : p.pidOf c with
    | some q' =>
      rw [hq] at hname
      have hsame := congrArg (fun w => strtoul (w.take 63)) hname
      simp only [strtoul_decimal] at hsame
      exact hread (by rw [hcut, hq, hsame])
    | none =>
      rw [hq] at hname
      simp only at hname
      rw [← hname] at hlong
      omega
  | none =>
    rw [hcut] at hread
    simp only
    obtain ⟨m, hm⟩ := pieces_take_strip sub 299
    rw [hm, ← happend, List.take_append]
    intro heq
    cases m with
    | zero =>
      rw [List.take_zero, Nat.zero_sub, List.take_zero] at heq
      cases heq
    | succ m =>
      have hcm : c.take (m + 1) ≠ [] := by
        rw [ne_eq, List.take_eq_nil_iff]
        rintro (h | rfl)
        · omega
        · simp at hlong
      rw [pieces_front (fun h => hslash (List.mem_of_mem_take h)) hcm (take_front hfront _)] at heq
      have hname := (List.cons.inj heq).1
      rw [Pids.named] at hname
      cases hq : p.pidOf c with
      | some q =>
        rw [hq] at hname
        exact pidOf_cut hcut hq hname
      | none => exact hread hq.symm

/-- All of it comes out exactly if no buffer cuts it. -/
theorem pieces_suffix_iff :
    pieces (physSuffix (p.pcParse sub) sub 300) = p.aliased (pieces sub) ↔
      p.pidOf ((word (strip sub)).take 63) = p.pidOf (word (strip sub)) ∧
        ∀ c ∈ (physText (p.pcParse sub) sub).drop 299, c = '/' := by
  rw [physSuffix, ← pieces_strip sub]
  by_cases hu : strip sub = []
  · have hall : ∀ c ∈ physText (p.pcParse sub) sub, c = '/' := by
      rw [Pids.pcParse, if_pos hu, physText, if_neg (by decide)]
      rw [strip, List.dropWhile_eq_nil_iff] at hu
      split
      · simp
      · exact fun c hc => of_decide_eq_true (hu c hc)
    rw [hu]
    refine iff_of_true ?_ ⟨rfl, fun c hc => hall c (List.mem_of_mem_drop hc)⟩
    exact pieces_slashes fun c hc => hall c (List.mem_of_mem_take hc)
  · have htext := physText_eq (p := p) hu
    rw [pieces_cons (head_strip sub) hu, Pids.aliased]
    have hword := word_ne_nil (head_strip sub) hu
    have hslash := noSlash_word (strip sub)
    have hfront := behind_front (strip sub)
    by_cases hread : p.pidOf ((word (strip sub)).take 63) = p.pidOf (word (strip sub))
    · have hfull : pieces (physText (p.pcParse sub) sub) =
          p.named (word (strip sub)) :: pieces (behind (strip sub)) := by
        rw [htext, hread, Pids.named]
        cases p.pidOf (word (strip sub)) with
        | some q =>
          simp only [List.cons_append]
          rw [pieces_slash, pieces_front (noSlash_decimal _) (decimal_ne_nil _) hfront]
        | none =>
          simp only
          rw [← pieces_strip sub, pieces_cons (head_strip sub) hu]
      rw [← hfull, and_iff_right hread]
      exact pieces_take_iff 299
    · refine iff_of_false ?_ fun h => hread h.1
      exact misread hu hread

theorem inside_iff : r.Inside (r.path ++ '/' :: t) ↔ Stays r.dir (pieces t) := by
  have hmoves : moves (ascii (r.dir ++ '/' :: t)) = moves (ascii r.dir) ++ moves (ascii t) := by
    rw [ascii, List.map_append, List.map_cons, moves, components_append _ (by decide),
      List.map_append]
    rfl
  have hrest : r.Inside (r.path ++ '/' :: t) ↔
      resolved (components (ascii r.dir)) <+: resolved (components (ascii (r.dir ++ '/' :: t))) := by
    constructor
    · rintro ⟨rest, hout, hin⟩
      rw [Root.path, List.append_assoc] at hout
      rwa [List.append_cancel_left hout]
    · exact fun hin => ⟨_, by rw [Root.path, List.append_assoc], hin⟩
  rw [hrest, resolved, resolved, ← moves, ← moves, hmoves, clamp_append, clamp_walk _ t,
    prefix_clamp_iff, Stays]

/-- Behind `pc_root` comes a slash. -/
theorem physSuffix_slash (hsub : sub = [] ∨ sub.head? = some '/') :
    ∃ t, physSuffix (p.pcParse sub) sub 300 = '/' :: t := by
  have htext : ∃ t, physText (p.pcParse sub) sub = '/' :: t := by
    rw [physText]
    split
    · exact ⟨_, rfl⟩
    · split
      · exact ⟨_, rfl⟩
      · rename_i hne
        cases sub with
        | nil => exact absurd rfl hne
        | cons c sub =>
          obtain rfl : c = '/' := by simpa using hsub
          exact ⟨_, rfl⟩
  obtain ⟨t, ht⟩ := htext
  exact ⟨t.take 298, by rw [physSuffix, ht]; rfl⟩

theorem complete_iff : p.Complete r path (r.path ++ '/' :: t) ↔ pieces t = p.places path := by
  rw [Pids.Complete, pieces_append, List.append_cancel_left_eq]

/-- What is printed for a slice, all of it. -/
theorem slice_pieces {pre dir : Text} (hmatch : sysfsMatch path = some (pre, dir)) :
    pieces (dir ++ if path.drop pre.length = [] then ['/'] else path.drop pre.length) =
      dir :: pieces (path.drop pre.length) := by
  have hdir : '/' ∉ dir ∧ dir ≠ [] := by
    have hmem := List.mem_of_find?_eq_some hmatch
    have hall : ∀ s ∈ slices, '/' ∉ s.2 ∧ s.2 ≠ [] := by decide
    exact hall _ hmem
  have hrest : path.drop pre.length = [] ∨ (path.drop pre.length).head? = some '/' := by
    have hp := List.find?_some hmatch
    simp only [Bool.and_eq_true, Bool.or_eq_true, decide_eq_true_eq] at hp
    exact hp.2
  split
  · rename_i hnil
    rw [hnil, pieces_append, pieces_word hdir.1 hdir.2]
    rfl
  · rename_i hne
    cases hd : path.drop pre.length with
    | nil => exact absurd hd hne
    | cons c rest =>
      rw [hd] at hrest
      obtain rfl : c = '/' := by simpa using hrest
      rw [pieces_append, pieces_slash, pieces_word hdir.1 hdir.2]
      rfl

theorem fit_eq_some {outsz : Nat} {s : Text} (h : fit outsz s = some out) : out = s := by
  rw [fit] at h
  split at h
  · exact (Option.some.inj h).symm
  · cases h

/-- Behind `pc_root` and a slash stand the path's places, as far as no buffer cuts them. -/
theorem rewrite_spec {windows busy : Bool} {outsz : Nat}
    (h : rewrite windows busy p (some r.path) path outsz = some out) :
    ∃ t, out = r.path ++ '/' :: t ∧ (pieces t = p.places path ↔ p.Fits path) := by
  rw [rewrite] at h
  split at h
  · cases h
  · cases hmatch : sysfsMatch path with
    | some s =>
      obtain ⟨pre, dir⟩ := s
      rw [hmatch] at h
      simp only [Option.bind_some] at h
      rw [List.append_assoc, List.cons_append] at h
      refine ⟨_, fit_eq_some h, ?_⟩
      rw [slice_pieces hmatch, Pids.places, hmatch, Pids.Fits, hmatch]
      refine iff_of_true rfl fun hnone => ?_
      cases hnone
    | none =>
      rw [hmatch] at h
      simp only at h
      cases hproc : procSub path with
      | none =>
        rw [hproc] at h
        cases h
      | some sub =>
        rw [hproc] at h
        simp only [Option.bind_some] at h
        have hsub : sub = path.drop 5 ∧ (sub = [] ∨ sub.head? = some '/') := by
          rw [procSub] at hproc
          split at hproc
          · rename_i hp
            cases hproc
            exact ⟨rfl, hp.2⟩
          · cases hproc
        obtain ⟨rfl, hsub⟩ := hsub
        obtain ⟨t, ht⟩ := physSuffix_slash (p := p) hsub
        rw [ht] at h
        refine ⟨t, fit_eq_some h, ?_⟩
        rw [Pids.places, hmatch, Pids.Fits, forall_prop_of_true hmatch, ← pieces_suffix_iff, ht,
          pieces_slash]

end Out

/-- **A rewritten path** stays inside the skeleton and is the complete image of its input exactly if
its components stay in `pc_root` and no buffer cuts them; and two paths that no buffer cuts come out
the same only with the same components. -/
theorem rewrite_contained_iff (windows busy : Bool) (p : Pids) (r : Root) (path : Text) (outsz : Nat)
    (out : Text) (h : rewrite windows busy p (some r.path) path outsz = some out) :
    (r.Inside out ∧ p.Complete r path out ↔ Stays r.dir (p.places path) ∧ p.Fits path) ∧
      ∀ path', rewrite windows busy p (some r.path) path' outsz = some out →
        p.Fits path → p.Fits path' → p.places path' = p.places path := by
  obtain ⟨t, hout, hfits⟩ := rewrite_spec h
  constructor
  · rw [hout, inside_iff, complete_iff, ← hfits]
    constructor
    · rintro ⟨hin, hall⟩
      exact ⟨hall ▸ hin, hall⟩
    · rintro ⟨hin, hall⟩
      exact ⟨hall.symm ▸ hin, hall⟩
  · intro path' h' hfit hfit'
    obtain ⟨t', hout', hfits'⟩ := rewrite_spec h'
    obtain rfl : t' = t := by simpa [hout] using hout'.symm
    rw [← hfits.mpr hfit, ← hfits'.mpr hfit']

/-- `C:/Temp/rust-ape-proc-5`, in the process 5. -/
def tempRoot : Root := ⟨"C:/".toList, "Temp/rust-ape-proc-5".toList⟩

def five : Pids := ⟨5, 5, by decide⟩

theorem rewrite_contained_self :
    tempRoot.Inside "C:/Temp/rust-ape-proc-5/5/../net/tcp".toList ∧
      five.Complete tempRoot "/proc/self/../net/tcp".toList
        "C:/Temp/rust-ape-proc-5/5/../net/tcp".toList := by
  refine (rewrite_contained_iff true false five tempRoot "/proc/self/../net/tcp".toList 600 _
    (by decide)).1.mpr ⟨by decide, fun _ => ⟨by decide, ?_⟩⟩
  rw [List.drop_eq_nil_of_le (by decide)]
  exact List.forall_mem_nil _

/-- `..` leads out of the skeleton, and two long names come out the same. -/
theorem rewrite_escapes :
    (rewrite true false five (some tempRoot.path) "/proc/..".toList 600 =
        some "C:/Temp/rust-ape-proc-5/..".toList ∧
      ¬ tempRoot.Inside "C:/Temp/rust-ape-proc-5/..".toList) ∧
    (rewrite true false five (some tempRoot.path) ("/proc/".toList ++ List.replicate 300 'a') 600 =
        some (tempRoot.path ++ '/' :: List.replicate 298 'a') ∧
      rewrite true false five (some tempRoot.path) ("/proc/".toList ++ List.replicate 301 'a') 600 =
        some (tempRoot.path ++ '/' :: List.replicate 298 'a')) := by
  refine ⟨⟨by decide, ?_⟩, by decide +kernel, by decide +kernel⟩
  rw [show "C:/Temp/rust-ape-proc-5/..".toList = tempRoot.path ++ '/' :: "..".toList from rfl,
    inside_iff]
  decide

/-! ## What is converted -/

/-- Where `__mkntpath2` reads the components as they are, what it writes for a path inside the
skeleton starts with the names of `pc_root`. -/
theorem inside_body {r : Root} {out rest : Text} {hd : Head}
    (hread : ReadAsIs hd) (hkeeps : KeepsRoot hd) (hrest : hd.rest = ascii rest)
    (hout : out = r.vol ++ rest) (hin : r.Inside out) :
    ∃ ps t, hd.body = hd.text (resolved (components (ascii r.dir)) ++ ps) t := by
  obtain ⟨rest', hout', ps, hps⟩ := hin
  obtain rfl : rest' = rest := List.append_cancel_left (hout'.symm.trans hout)
  obtain ⟨t, ht⟩ := body_kept hread hkeeps
  exact ⟨ps, t, by rw [ht, hrest, hps]⟩

end ApeShim.Procfs.Rewrite
