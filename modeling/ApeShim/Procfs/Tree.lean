import Mathlib

/-!
The path model of the /proc emulation (`shim/procfs/core/tree.c`): what a path under
/proc is parsed to, with the lengths its fields are cut at. A C string is the list of
its characters, one for each byte.
-/

namespace ApeShim.Procfs

abbrev Text := List Char

instance (x : Text) (names : List Text) : Decidable (x ∈ names) :=
  List.instDecidableMemOfLawfulBEq x names

/-! ## The tables of names -/

/-- `pfs_top_files` -/
def topFiles : List Text :=
  ["meminfo", "uptime", "stat", "loadavg", "cpuinfo", "version", "filesystems", "mounts",
    "diskstats", "swaps", "cmdline"].map String.toList

/-- `pfs_net_files` -/
def netFiles : List Text := ["tcp", "tcp6", "udp", "udp6", "dev", "unix"].map String.toList

/-- `pfs_pid_volatile` -/
def pidVolatile : List Text := ["stat", "status", "statm", "io"].map String.toList

/-- `pfs_pid_stable` -/
def pidStable : List Text :=
  ["cmdline", "comm", "environ", "limits", "maps", "cgroup", "mountinfo", "mounts",
    "oom_score_adj", "oom_score"].map String.toList

/-- `pfs_sys_dirs` -/
def sysDirs : List Text := ["kernel", "kernel/random", "vm", "fs"].map String.toList

/-- The names `pfs_gen_sys_file` knows. -/
def sysFiles : List Text :=
  ["kernel/ostype", "kernel/osrelease", "kernel/version", "kernel/hostname", "kernel/pid_max",
    "kernel/threads-max", "kernel/random/uuid", "kernel/random/boot_id", "vm/overcommit_memory",
    "fs/file-max"].map String.toList

/-! ## What the host says -/

inductive FType
  | reg | dir | lnk | sock | fifo
  deriving DecidableEq, Repr

/-- The part of a `struct stat` that tells files apart. -/
structure Stat where
  type : FType
  perm : Nat
  nlink : Nat := 1
  deriving DecidableEq, Repr

/-- `struct pfs_fdent` -/
structure FdEnt where
  fd : UInt32
  text : Text

/-- One process snapshot, and what the kernel says of the processes in it. -/
structure Host where
  getpid : UInt32
  /-- `pfs_procs` -/
  procs : List UInt32
  /-- `pfs_threads_of` -/
  threads : UInt32 → List UInt64
  /-- `pfs_self_fds` and `pfs_other_fds` -/
  fds : UInt32 → List FdEnt
  /-- `pfs_pid_link`, into a buffer of that many bytes -/
  pidLink : UInt32 → Text → Nat → Option Text
  /-- `stat` -/
  stat : Text → Option Stat
  /-- `start_jiffies` -/
  startJiffies : UInt32 → UInt64
  /-- what the generators print -/
  pidText : UInt32 → Text → Text
  topText : Text → Text
  netText : Text → Text
  sysText : Text → Text

/-- `pfs_self_pid`, where the memory serves all. -/
def Host.selfPid (h : Host) : UInt32 := h.getpid

/-- `pfs_proc_find` -/
def Host.alive (h : Host) (pid : UInt32) : Bool := h.procs.contains pid

/-! ## Parsing -/

def strip (s : Text) : Text := s.dropWhile (· = '/')

def word (s : Text) : Text := s.takeWhile (· ≠ '/')

/-- What follows the first component and its separators. -/
def after (s : Text) : Text := strip (s.dropWhile (· ≠ '/'))

/-- What `comp` copies into a field of `cap` bytes. -/
def comp (cap : Nat) (s : Text) : Text := (word s).take (cap - 1)

/-- `strtoul` in base 10 of a text that starts with a digit, as a `uint32_t`. -/
def strtoul (s : Text) : UInt32 :=
  UInt32.ofNat (min (Nat.ofDigitChars 10 (s.takeWhile Char.isDigit) 0) (2 ^ 64 - 1))

/-- `enum kind` -/
inductive Kind
  | other | root | top | pidDir | pidSub | netDir | netFile | sys
  deriving DecidableEq, Repr

/-- `struct node` -/
structure Node where
  kind : Kind
  wasSelf : Bool := false
  pid : UInt32 := 0
  name : Text := []
  rest : Text := []
  deriving DecidableEq

/-- The end of `pc_parse`, behind a process. -/
def parsePid (wasSelf : Bool) (pid : UInt32) (rest : Text) : Node :=
  if rest = [] then { kind := .pidDir, wasSelf, pid }
  else { kind := .pidSub, wasSelf, pid, name := comp 64 rest, rest := (after rest).take 199 }

/-- `pc_parse` behind the first component. -/
def Host.parseRest (h : Host) (first rest : Text) : Node :=
  if first = "self".toList then parsePid true h.selfPid rest
  else if first.head?.any Char.isDigit then
    if strtoul first = h.getpid then parsePid true h.selfPid rest
    else parsePid false (strtoul first) rest
  else if first = "net".toList then
    if rest = [] then { kind := .netDir } else { kind := .netFile, name := comp 64 rest }
  else if first = "sys".toList then { kind := .sys, rest := rest.take 199 }
  else { kind := if rest = [] then .top else .other, name := first }

/-- `pc_parse`, of what follows "/proc". -/
def Host.pcParse (h : Host) (sub : Text) : Node :=
  if strip sub = [] then { kind := .root }
  else h.parseRest (comp 64 (strip sub)) (after (strip sub))

/-- What follows "/proc" in a path of the tree. -/
def procSub (path : Text) : Option Text :=
  if path.take 5 = "/proc".toList ∧ (path.drop 5 = [] ∨ (path.drop 5).head? = some '/') then
    some (path.drop 5)
  else none

/-! ## Names in a buffer -/

theorem take_eq_iff {x y : Text} {k : Nat} (hy : y.length < k) : x.take k = y ↔ x = y := by
  constructor
  · intro hxy
    have hlen : min k x.length < k := by rw [← List.length_take, hxy]; exact hy
    rw [← hxy, List.take_of_length_le (by omega)]
  · rintro rfl
    exact List.take_of_length_le (Nat.le_of_lt hy)

theorem take_mem_iff {table : List Text} {x : Text} {k : Nat} (ht : ∀ y ∈ table, y.length < k) :
    x.take k ∈ table ↔ x ∈ table := by
  constructor
  · intro hx
    rwa [(take_eq_iff (ht _ hx)).mp rfl]
  · intro hx
    rwa [(take_eq_iff (ht _ hx)).mpr rfl]

theorem head_take (x : Text) : (x.take 63).head? = x.head? := by
  cases x <;> rfl

/-! ## The path of an entry -/

/-- A name a directory entry can have, the dots apart. -/
structure EntryName (x : Text) : Prop where
  ne_nil : x ≠ []
  noSlash : '/' ∉ x
  ne_dot : x ≠ ".".toList
  ne_dotdot : x ≠ "..".toList

/-- `d/x` -/
def join (d x : Text) : Text := d ++ '/' :: x

section Entry

variable {s x : Text} (hx : EntryName x)

include hx

theorem strip_name : strip x = x := by
  cases x with
  | nil => rfl
  | cons c x =>
    have hc : c ≠ '/' := by
      rintro rfl
      exact hx.noSlash (by simp)
    simp [strip, hc]

theorem word_name : word x = x := by
  rw [word, List.takeWhile_eq_self_iff]
  intro c hc
  have : c ≠ '/' := by
    rintro rfl
    exact hx.noSlash hc
  simpa using this

theorem after_name : after x = [] := by
  have : x.dropWhile (· ≠ '/') = [] := by
    rw [List.dropWhile_eq_nil_iff]
    intro c hc
    have : c ≠ '/' := by
      rintro rfl
      exact hx.noSlash hc
    simpa using this
  rw [after, this]
  rfl

theorem strip_join (s : Text) : strip (join s x) = if strip s = [] then x else join (strip s) x := by
  rw [join, strip, List.dropWhile_append]
  have hslash : strip ('/' :: x) = x := by
    have : strip ('/' :: x) = strip x := by simp [strip]
    rw [this, strip_name hx]
  by_cases h : strip s = []
  · have h' : (s.dropWhile (· = '/')).isEmpty = true := by simpa [strip] using h
    rw [if_pos h', if_pos h]
    exact hslash
  · have h' : ¬ (s.dropWhile (· = '/')).isEmpty = true := by simpa [strip] using h
    rw [if_neg h', if_neg h]
    rfl

omit hx in
theorem word_join (s : Text) : word (join s x) = word s := by
  rw [join, word, List.takeWhile_append]
  have hslash : ('/' :: x).takeWhile (· ≠ '/') = [] := by simp
  split
  · rename_i hall
    rw [hslash, List.append_nil]
    exact ((List.takeWhile_prefix _).eq_of_length hall).symm
  · rfl

theorem after_join (s : Text) : after (join s x) = if after s = [] then x else join (after s) x := by
  have hdrop : (join s x).dropWhile (· ≠ '/') = join (s.dropWhile (· ≠ '/')) x := by
    rw [join, List.dropWhile_append]
    split
    · rename_i hnil
      rw [List.isEmpty_iff.mp hnil]
      simp [join]
    · rfl
  rw [after, hdrop, strip_join hx]
  rfl

/-! ## What an entry is parsed to -/

theorem comp_name (cap : Nat) : comp cap x = x.take (cap - 1) := by rw [comp, word_name hx]

omit hx in
theorem comp_join (cap : Nat) (s : Text) : comp cap (join s x) = comp cap s := by
  rw [comp, comp, word_join]

/-- In the root. -/
theorem pcParse_root (h : Host) (hs : strip s = []) :
    h.pcParse (join s x) = h.parseRest (x.take 63) [] := by
  rw [Host.pcParse, strip_join hx, if_pos hs, if_neg hx.ne_nil, comp_name hx, after_name hx]

theorem pcParse_below (h : Host) (hs : strip s ≠ []) :
    h.pcParse (join s x) = h.parseRest (comp 64 (strip s))
      (if after (strip s) = [] then x else join (after (strip s)) x) := by
  have hne : join (strip s) x ≠ [] := by simp [join]
  rw [Host.pcParse, strip_join hx, if_neg hs, if_neg hne, comp_join, after_join hx]

/-- In a directory of a process. -/
theorem parsePid_dir (w : Bool) (pid : UInt32) :
    parsePid w pid x = { kind := .pidSub, wasSelf := w, pid, name := x.take 63 } := by
  rw [parsePid, if_neg hx.ne_nil, comp_name hx, after_name hx]
  rfl

/-- Below it, the field `rest` cuts. -/
theorem parsePid_sub (w : Bool) (pid : UInt32) {rest : Text} (hr : rest ≠ []) :
    parsePid w pid (join rest x) = { parsePid w pid rest with
      rest := (if (parsePid w pid rest).rest = [] then x else join (parsePid w pid rest).rest x).take 199 } := by
  have hne : join rest x ≠ [] := by simp [join]
  simp only [parsePid, if_neg hne, if_neg hr, comp_join, after_join hx]
  congr 1
  by_cases ha : after rest = []
  · simp [ha]
  · have htake : (after rest).take 199 ≠ [] := by simpa using ha
    rw [if_neg ha, if_neg htake, join, join, List.take_append, List.take_append, List.take_take,
      Nat.min_self, List.length_take]
    congr 2
    omega

omit hx in
theorem parsePid_kind (w : Bool) (pid : UInt32) (rest : Text) :
    (parsePid w pid rest).kind = if rest = [] then .pidDir else .pidSub := by
  rw [parsePid]
  split <;> rfl

omit hx in
/-- What the first component decides. -/
theorem parseRest_cases (h : Host) (first : Text) :
    (∃ w pid, ∀ rest, h.parseRest first rest = parsePid w pid rest) ∨
    (∀ rest, h.parseRest first rest =
      if rest = [] then { kind := .netDir } else { kind := .netFile, name := comp 64 rest }) ∨
    (∀ rest, h.parseRest first rest = { kind := .sys, rest := rest.take 199 }) ∨
    ∀ rest, h.parseRest first rest = { kind := if rest = [] then .top else .other, name := first } := by
  unfold Host.parseRest
  split
  · exact Or.inl ⟨_, _, fun _ => rfl⟩
  · split
    · split
      · exact Or.inl ⟨_, _, fun _ => rfl⟩
      · exact Or.inl ⟨_, _, fun _ => rfl⟩
    · split
      · exact Or.inr (Or.inl fun _ => rfl)
      · split
        · exact Or.inr (Or.inr (Or.inl fun _ => rfl))
        · exact Or.inr (Or.inr (Or.inr fun _ => rfl))

/-- **The node of an entry**, from the node of its directory. -/
theorem pcParse_entry (h : Host) (sub : Text) :
    ((h.pcParse sub).kind = .root → h.pcParse (join sub x) = h.parseRest (x.take 63) []) ∧
    ((h.pcParse sub).kind = .netDir →
      h.pcParse (join sub x) = { kind := .netFile, name := x.take 63 }) ∧
    ((h.pcParse sub).kind = .pidDir → (h.pcParse sub).rest = [] ∧
      h.pcParse (join sub x) = { h.pcParse sub with kind := .pidSub, name := x.take 63 }) ∧
    ((h.pcParse sub).kind = .pidSub →
      h.pcParse (join sub x) = { h.pcParse sub with
        rest := (if (h.pcParse sub).rest = [] then x else join (h.pcParse sub).rest x).take 199 }) := by
  by_cases hs : strip sub = []
  · have hroot : h.pcParse sub = { kind := .root } := if_pos hs
    rw [hroot]
    refine ⟨fun _ => pcParse_root hx h hs, fun hk => ?_, fun hk => ?_, fun hk => ?_⟩ <;> cases hk
  · have hsub : h.pcParse sub = h.parseRest (comp 64 (strip sub)) (after (strip sub)) := if_neg hs
    rw [pcParse_below hx h hs, hsub]
    generalize after (strip sub) = rest
    rcases parseRest_cases h (comp 64 (strip sub)) with ⟨w, pid, hp⟩ | hp | hp | hp
    · rw [hp, hp, parsePid_kind]
      by_cases hr : rest = []
      · rw [if_pos hr, if_pos hr, hr, parsePid_dir hx]
        refine ⟨fun hk => ?_, fun hk => ?_, fun _ => ⟨rfl, rfl⟩, fun hk => ?_⟩ <;> cases hk
      · rw [if_neg hr, if_neg hr, parsePid_sub hx w pid hr]
        refine ⟨fun hk => ?_, fun hk => ?_, fun hk => ?_, fun _ => rfl⟩ <;> cases hk
    · rw [hp, hp]
      by_cases hr : rest = []
      · rw [if_pos hr, if_pos hr, if_neg hx.ne_nil, comp_name hx]
        refine ⟨fun hk => ?_, fun _ => rfl, fun hk => ?_, fun hk => ?_⟩ <;> cases hk
      · rw [if_neg hr, if_neg hr, if_neg (by simp [join])]
        refine ⟨fun hk => ?_, fun hk => ?_, fun hk => ?_, fun hk => ?_⟩ <;> cases hk
    · rw [hp, hp]
      refine ⟨fun hk => ?_, fun hk => ?_, fun hk => ?_, fun hk => ?_⟩ <;> cases hk
    · rw [hp, hp]
      by_cases hr : rest = []
      · rw [if_pos hr]
        refine ⟨fun hk => ?_, fun hk => ?_, fun hk => ?_, fun hk => ?_⟩ <;> cases hk
      · rw [if_neg hr]
        refine ⟨fun hk => ?_, fun hk => ?_, fun hk => ?_, fun hk => ?_⟩ <;> cases hk

omit hx in
theorem procSub_join {d sub : Text} (hd : procSub d = some sub) : procSub (join d x) = some (join sub x) := by
  unfold procSub at hd
  split at hd
  · rename_i hc
    obtain rfl := Option.some.inj hd
    have hlen : 5 ≤ d.length := by
      have := congrArg List.length hc.1
      rw [List.length_take] at this
      have h5 : "/proc".toList.length = 5 := rfl
      omega
    have htake : (join d x).take 5 = d.take 5 := List.take_append_of_le_length hlen
    have hdrop : (join d x).drop 5 = join (d.drop 5) x := List.drop_append_of_le_length hlen
    have hhead : (join (d.drop 5) x).head? = some '/' := by
      rcases hc.2 with h | h
      · rw [h]
        rfl
      · rw [join, List.head?_append, h]
        rfl
    rw [procSub, htake, hdrop, if_pos ⟨hc.1, Or.inr hhead⟩]
  · cases hd

end Entry

end ApeShim.Procfs
