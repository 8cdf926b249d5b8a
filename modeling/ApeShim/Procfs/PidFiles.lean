import ApeShim.Lib.Lines
import ApeShim.Procfs.Buffer
import ApeShim.Procfs.Tree

/-!
The files of a process that change while it runs: `stat`, `status`, `statm` and `io` of
`shim/procfs/pid.c`, with the name that `set_comm` of `shim/procfs/ntapi.c` makes of an image's. A
program reads them by position or by key, so each field must be where it looks.
-/

namespace ApeShim.Procfs
open Decimal Lines

/-! ## The name -/

/-- `comm` is printable, without spaces or parentheses, and never empty. -/
structure Comm where
  text : Text
  printable : ∀ c ∈ text, 32 < c.toNat ∧ c.toNat < 127 ∧ c ≠ '(' ∧ c ≠ ')'
  nonempty : text ≠ []

/-- A unit of the image's name, as `set_comm` keeps it. -/
def commChar (c : UInt16) : Char :=
  if c < 32 ∨ 126 < c ∨ c = 40 ∨ c = 41 ∨ c = 32 then '_' else Char.ofNat c.toNat

/-- The loop of `set_comm`: up to a NUL, and at most `sizeof p->comm - 1`. -/
def commLoop (name : List UInt16) : Text := ((name.takeWhile (· ≠ 0)).take 63).map commChar

def setCommText (pid : UInt32) (name : List UInt16) : Text :=
  if commLoop name = [] then text pid.toNat else commLoop name

theorem commChar_printable (c : UInt16) :
    32 < (commChar c).toNat ∧ (commChar c).toNat < 127 ∧ commChar c ≠ '(' ∧ commChar c ≠ ')' := by
  rw [commChar]
  split
  · decide
  · rename_i hc
    simp only [not_or, UInt16.lt_iff_toNat_lt, ← UInt16.toNat_inj] at hc
    obtain ⟨hlo, hhi, hopen, hclose, hblank⟩ := hc
    have hlo' : 32 ≤ c.toNat := not_lt.mp hlo
    have hhi' : c.toNat ≤ 126 := not_lt.mp hhi
    have hblank' : c.toNat ≠ 32 := hblank
    have hopen' : c.toNat ≠ 40 := hopen
    have hclose' : c.toNat ≠ 41 := hclose
    have hnat : (Char.ofNat c.toNat).toNat = c.toNat := by
      rw [Char.toNat_ofNat, if_pos (.inl (by omega))]
    refine ⟨by omega, by omega, fun h => ?_, fun h => ?_⟩
    · rw [h] at hnat
      exact hopen' hnat.symm
    · rw [h] at hnat
      exact hclose' hnat.symm

theorem text_printable (n : Nat) : ∀ c ∈ text n,
    32 < c.toNat ∧ c.toNat < 127 ∧ c ≠ '(' ∧ c ≠ ')' := by
  intro c hc
  rcases mem_text hc with rfl | hdigit
  · decide
  · rw [Char.isDigit, Bool.and_eq_true, decide_eq_true_iff, decide_eq_true_iff] at hdigit
    obtain ⟨hlo, hhi⟩ := hdigit
    have hlo' : 48 ≤ c.toNat := hlo
    have hhi' : c.toNat ≤ 57 := hhi
    refine ⟨by omega, by omega, ?_, ?_⟩
    · rintro rfl
      exact absurd hlo' (by decide)
    · rintro rfl
      exact absurd hlo' (by decide)

theorem setCommText_printable (pid : UInt32) (name : List UInt16) : ∀ c ∈ setCommText pid name,
    32 < c.toNat ∧ c.toNat < 127 ∧ c ≠ '(' ∧ c ≠ ')' := by
  rw [setCommText]
  split
  · exact text_printable pid.toNat
  · intro c hc
    obtain ⟨u, -, rfl⟩ := List.mem_map.mp hc
    exact commChar_printable u

theorem setCommText_ne_nil (pid : UInt32) (name : List UInt16) : setCommText pid name ≠ [] := by
  rw [setCommText]
  split
  · exact text_ne_nil _
  · assumption

/-- `set_comm` -/
def setComm (pid : UInt32) (name : List UInt16) : Comm :=
  ⟨setCommText pid name, setCommText_printable pid name, setCommText_ne_nil pid name⟩

theorem Comm.notMem (c : Comm) {x : Char} (h : x.toNat ≤ 32 ∨ x = '(' ∨ x = ')') : x ∉ c.text := by
  intro hx
  obtain ⟨hlo, -, hopen, hclose⟩ := c.printable x hx
  rcases h with hlow | rfl | rfl
  · omega
  · exact hopen rfl
  · exact hclose rfl

/-! ## The generators -/

/-- What the files need of `struct pfs_proc`. -/
structure Proc where
  ppid : UInt32
  threads : UInt32
  comm : Comm

/-- `struct NtIoCounters` -/
structure IoCounters where
  readTransferCount : UInt64
  writeTransferCount : UInt64
  readOperationCount : UInt64
  writeOperationCount : UInt64

/-- `struct pidfacts` -/
structure PidFacts where
  utime : UInt64
  stime : UInt64
  starttime : UInt64
  vsize : UInt64
  rss : UInt64
  peakVsize : UInt64
  peakRss : UInt64
  minflt : UInt32
  io : IoCounters

/-- `%u` and `%llu` -/
def num (n : Nat) : Text := text n

/-- Fields of a format with blanks between them. -/
def spaced (fields : List Text) : Text := [' '].intercalate fields

/-- `state_of` -/
def stateOf (self : Bool) : Char := if self then 'R' else 'S'

section Generators

variable (pid : UInt32) (self : Bool) (uid gid : UInt32) (p : Proc) (f : PidFacts)

/-- `gen_stat`, one text for each `pfs_printf`. -/
def genStat : List Text :=
  [spaced [num pid.toNat, '(' :: p.comm.text ++ [')'], [stateOf self], num p.ppid.toNat,
      num pid.toNat, num pid.toNat, "0 -1 0".toList, num f.minflt.toNat, "0 0 0".toList, []],
    spaced [num f.utime.toNat, num f.stime.toNat, "0 0 20 0".toList, num p.threads.toNat,
      "0".toList, num f.starttime.toNat, num f.vsize.toNat, num (f.rss / 4096).toNat, []],
    "18446744073709551615 0 0 0 0 0 0 0 0 0 0 0 0 17 0 0 0 0 ".toList ++
      "0 0 0 0 0 0 0 0 0 0\n".toList]

/-- `%8llu kB` -/
def kB (bytes : UInt64) : Text := padLeft ' ' 8 (num (bytes / 1024).toNat) ++ " kB".toList

/-- The lines of `gen_status`, in groups as they are printed. -/
def statusRows : List (List (String × Text)) :=
  let zero := "0000000000000000".toList
  let uid := if self then num uid.toNat else num 0
  let gid := if self then num gid.toNat else num 0
  [[("Name", p.comm.text)], [("Umask", "0022".toList)],
    [("State",
      stateOf self :: " (".toList ++ (if self then "running" else "sleeping").toList ++ [')'])],
    [("Tgid", num pid.toNat), ("Ngid", "0".toList), ("Pid", num pid.toNat),
      ("PPid", num p.ppid.toNat)],
    [("TracerPid", "0".toList)],
    [("Uid", ['\t'].intercalate [uid, uid, uid, uid])],
    [("Gid", ['\t'].intercalate [gid, gid, gid, gid])],
    [("FDSize", "64".toList), ("Groups", gid)],
    [("VmPeak", kB f.peakVsize), ("VmSize", kB f.vsize)],
    [("VmHWM", kB f.peakRss), ("VmRSS", kB f.rss)],
    [("VmData", "       0 kB".toList), ("VmStk", "       0 kB".toList),
      ("VmExe", "       0 kB".toList), ("VmLib", "       0 kB".toList),
      ("VmSwap", "       0 kB".toList)],
    [("Threads", num p.threads.toNat)],
    [("SigQ", "0/0".toList), ("SigPnd", zero), ("ShdPnd", zero), ("SigBlk", zero), ("SigIgn", zero),
      ("SigCgt", zero), ("CapInh", zero), ("CapPrm", zero), ("CapEff", zero)],
    [("voluntary_ctxt_switches", "0".toList), ("nonvoluntary_ctxt_switches", "0".toList)]]

/-- `gen_status` -/
def genStatus : List Text :=
  (statusRows pid self uid gid p f).map fun rows =>
    rows.flatMap fun r => r.1.toList ++ ":\t".toList ++ r.2 ++ ['\n']

/-- `gen_statm` -/
def genStatm : List Text :=
  [spaced [num (f.vsize / 4096).toNat, num (f.rss / 4096).toNat, "0 0 0 0 0".toList] ++ ['\n']]

/-- `gen_io` -/
def genIo : List Text :=
  [([("rchar", f.io.readTransferCount), ("wchar", f.io.writeTransferCount),
    ("syscr", f.io.readOperationCount), ("syscw", f.io.writeOperationCount),
    ("read_bytes", f.io.readTransferCount), ("write_bytes", f.io.writeTransferCount),
    ("cancelled_write_bytes", 0)].flatMap fun r : String × UInt64 =>
      r.1.toList ++ ": ".toList ++ num r.2.toNat ++ ['\n'])]

end Generators

/-! ## What the readers find -/

/-- A line of `stat`. -/
structure StatLine where
  pid : Int
  comm : Text
  state : Char
  numbers : List Int

/-- A field behind the state by its number, which starts at one with the pid. -/
def StatLine.field (l : StatLine) (n : Nat) : Option Int := l.numbers[n - 4]?

/-- The name is between the first parenthesis and the last. -/
def readStat (s : Text) : Option StatLine := do
  let (pid, s) ← read s
  let s ← expect ' ' s
  let s ← expect '(' s
  let (comm, s) ← splitLast ')' s
  let s ← expect ' ' s
  let state ← s.head?
  let s ← expect ' ' s.tail
  let (numbers, s) ← readRow ' ' '\n' 49 s
  if s = [] then some ⟨pid, comm, state, numbers⟩ else none

section Readers

variable (pid : UInt32) (self : Bool) (p : Proc) (f : PidFacts)

def StatSays (s : Text) : Prop :=
  (s.splitOn ' ').length = 52 ∧ ∃ l, readStat s = some l ∧
    l.pid = pid.toNat ∧ l.comm = p.comm.text ∧ l.state = stateOf self ∧
    l.field 4 = some p.ppid.toNat ∧ l.field 10 = some f.minflt.toNat ∧
    l.field 14 = some f.utime.toNat ∧ l.field 15 = some f.stime.toNat ∧
    l.field 20 = some p.threads.toNat ∧ l.field 22 = some f.starttime.toNat ∧
    l.field 23 = some f.vsize.toNat ∧ l.field 24 = some (f.rss / 4096).toNat ∧
    l.numbers.length = 49

def statmNumbers : List Int := [(f.vsize / 4096).toNat, (f.rss / 4096).toNat, 0, 0, 0, 0, 0]

def StatusSays (s : Text) : Prop :=
  value "Name".toList s = some p.comm.text ∧
  (value "State".toList s).bind List.head? = some (stateOf self) ∧
  value "Pid".toList s = some (num pid.toNat) ∧
  value "PPid".toList s = some (num p.ppid.toNat) ∧
  value "Threads".toList s = some (num p.threads.toNat) ∧
  value "VmPeak".toList s = some (num (f.peakVsize / 1024).toNat ++ " kB".toList) ∧
  value "VmSize".toList s = some (num (f.vsize / 1024).toNat ++ " kB".toList) ∧
  value "VmHWM".toList s = some (num (f.peakRss / 1024).toNat ++ " kB".toList) ∧
  value "VmRSS".toList s = some (num (f.rss / 1024).toNat ++ " kB".toList)

def IoSays (s : Text) : Prop :=
  value "rchar".toList s = some (num f.io.readTransferCount.toNat) ∧
  value "wchar".toList s = some (num f.io.writeTransferCount.toNat) ∧
  value "syscr".toList s = some (num f.io.readOperationCount.toNat) ∧
  value "syscw".toList s = some (num f.io.writeOperationCount.toNat) ∧
  value "read_bytes".toList s = some (num f.io.readTransferCount.toNat) ∧
  value "write_bytes".toList s = some (num f.io.writeTransferCount.toNat)

end Readers

/-! ## stat -/

/-- The fields behind the state, as numbers. -/
def statNumbers (pid : UInt32) (p : Proc) (f : PidFacts) : List Int :=
  [p.ppid.toNat, pid.toNat, pid.toNat, 0, -1, 0, f.minflt.toNat, 0, 0, 0, f.utime.toNat,
    f.stime.toNat, 0, 0, 20, 0, p.threads.toNat, 0, f.starttime.toNat, f.vsize.toNat,
    (f.rss / 4096).toNat, 18446744073709551615, 0, 0, 0, 0, 0, 0, 0, 0, 0, 0, 0, 0, 17, 0, 0, 0, 0,
    0, 0, 0, 0, 0, 0, 0, 0, 0, 0]

theorem stat_row (pid : UInt32) (self : Bool) (p : Proc) (f : PidFacts) :
    (genStat pid self p f).flatten =
      num pid.toNat ++ ' ' :: '(' :: (p.comm.text ++ ')' :: ' ' :: stateOf self :: ' ' ::
        Decimal.row ' ' '\n' (statNumbers pid p f)) := by
  have hzero : text 0 = "0".toList := by decide
  have hminus : text (-1) = "-1".toList := by decide
  have hprio : text 20 = "20".toList := by decide
  have hsignal : text 17 = "17".toList := by decide
  have hmax : text 18446744073709551615 = "18446744073709551615".toList := by decide
  simp [genStat, statNumbers, Decimal.row, spaced, num, hzero, hminus, hprio, hsignal, hmax]

variable (pid : UInt32) (self : Bool) (uid gid : UInt32) (p : Proc) (f : PidFacts)

theorem paren_notMem_row (ns : List Int) : ')' ∉ Decimal.row ' ' '\n' ns := by
  intro h
  rcases mem_row h with hc | hc | hc | hc
  all_goals exact absurd hc (by decide)

theorem readStat_genStat : readStat (genStat pid self p f).flatten =
    some ⟨pid.toNat, p.comm.text, stateOf self, statNumbers pid p f⟩ := by
  have hpid := read_text pid.toNat (ends_cons (show ' '.isDigit = false by decide)
    ('(' :: (p.comm.text ++ ')' :: ' ' :: stateOf self :: ' ' ::
      Decimal.row ' ' '\n' (statNumbers pid p f))))
  have hclose : ')' ∉ ' ' :: stateOf self :: ' ' :: Decimal.row ' ' '\n' (statNumbers pid p f) := by
    have hrow := paren_notMem_row (statNumbers pid p f)
    have hstate : ')' ≠ stateOf self := by cases self <;> decide
    simp [hrow, hstate]
  have hrow : readRow ' ' '\n' 49 (Decimal.row ' ' '\n' (statNumbers pid p f) ++ []) =
      some (statNumbers pid p f, []) := @readRow_row ' ' '\n' (by decide) (by decide) []
      (statNumbers pid p f)
  rw [List.append_nil] at hrow
  rw [stat_row, readStat, num, hpid]
  simp only [Option.bind_eq_bind, Option.bind_some, expect, if_true, splitLast_append _ hclose,
    List.head?_cons, List.tail_cons, hrow]

/-- A reader that takes the fields between blanks gets as many as the format has. -/
theorem splitOn_genStat : ((genStat pid self p f).flatten.splitOn ' ').length = 52 := by
  have hpid : ' ' ∉ num pid.toNat := notMem_text _ (by decide) (by decide)
  have hcomm : ' ' ∉ '(' :: (p.comm.text ++ [')']) := by
    have hblank := p.comm.notMem (x := ' ') (.inl (by decide))
    simp [hblank]
  have hstate : ' ' ∉ [stateOf self] := by cases self <;> decide
  have hrow : ((Decimal.row ' ' '\n' (statNumbers pid p f)).splitOn ' ').length = 49 :=
    splitOn_row (by decide) (by decide) (by decide) (List.cons_ne_nil _ _)
  have hfields : (genStat pid self p f).flatten = num pid.toNat ++ ' ' ::
      (('(' :: (p.comm.text ++ [')'])) ++ ' ' :: ([stateOf self] ++ ' ' ::
        Decimal.row ' ' '\n' (statNumbers pid p f))) := by
    rw [stat_row]
    simp
  rw [hfields, List.splitOn_append_cons_self_of_not_mem hpid,
    List.splitOn_append_cons_self_of_not_mem hcomm,
    List.splitOn_append_cons_self_of_not_mem hstate, List.length_cons, List.length_cons,
    List.length_cons, hrow]

theorem statSays_genStat : StatSays pid self p f (genStat pid self p f).flatten :=
  ⟨splitOn_genStat pid self p f, _, readStat_genStat pid self p f, rfl, rfl, rfl, rfl, rfl, rfl,
    rfl, rfl, rfl, rfl, rfl, rfl⟩

/-! ## statm, status and io -/

theorem readRow_genStatm :
    readRow ' ' '\n' 7 (genStatm f).flatten = some (statmNumbers f, []) := by
  have hzero : text 0 = "0".toList := by decide
  have htext : (genStatm f).flatten = Decimal.row ' ' '\n' (statmNumbers f) ++ [] := by
    simp [genStatm, statmNumbers, spaced, Decimal.row, num, hzero]
  rw [htext]
  exact @readRow_row ' ' '\n' (by decide) (by decide) [] (statmNumbers f)

/-- What a line of `status` is, with its key. -/
def statusPairs : List (Text × Text) :=
  (statusRows pid self uid gid p f).flatten.map fun r => (r.1.toList, '\t' :: r.2)

theorem genStatus_rows : (genStatus pid self uid gid p f).flatten =
    unlines ((statusPairs pid self uid gid p f).map fun r => r.1 ++ ':' :: r.2) := by
  simp [genStatus, statusPairs, unlines, List.flatMap_def, List.map_flatten, List.flatten_flatten,
    Function.comp_def]

theorem num_clean (n : Nat) : '\n' ∉ num n := notMem_text n (by decide) (by decide)

theorem kB_clean (n : UInt64) : '\n' ∉ kB n := by
  simp [kB, padLeft, List.mem_replicate, num_clean]

theorem statusPairs_clean : ∀ r ∈ statusPairs pid self uid gid p f,
    (':' ∉ r.1 ∧ '\n' ∉ r.1) ∧ '\n' ∉ r.2 := by
  have hcomm := p.comm.notMem (x := '\n') (.inl (by decide))
  cases self <;> simp [statusPairs, statusRows, stateOf, num_clean, kB_clean, hcomm]

theorem num_value (n : Nat) : ('\t' :: num n).dropWhile blank = num n := by
  have htext := dropWhile_text n []
  rw [List.append_nil] at htext
  exact htext

theorem kB_value (n : UInt64) :
    ('\t' :: kB n).dropWhile blank = num (n / 1024).toNat ++ " kB".toList := by
  have htext : (kB n).dropWhile blank = num (n / 1024).toNat ++ " kB".toList := by
    rw [kB, dropWhile_padLeft]
    exact dropWhile_text _ _
  exact htext

theorem comm_value (c : Comm) : ('\t' :: c.text).dropWhile blank = c.text := by
  have hhead : c.text.dropWhile blank = c.text := by
    cases htext : c.text with
    | nil => exact absurd htext c.nonempty
    | cons x s =>
        have hx := (c.printable x (by rw [htext]; exact List.mem_cons_self)).1
        refine List.dropWhile_cons_of_neg fun hblank => ?_
        rw [blank, Bool.or_eq_true, beq_iff_eq, beq_iff_eq] at hblank
        rcases hblank with rfl | rfl <;> exact absurd hx (by decide)
  exact hhead

theorem status_value (key : Text) : value key (genStatus pid self uid gid p f).flatten =
    ((statusPairs pid self uid gid p f).map fun r => (r.1, r.2.dropWhile blank)).lookup key := by
  rw [genStatus_rows, value_rows (statusPairs_clean pid self uid gid p f)]

theorem statusSays_genStatus :
    StatusSays pid self p f (genStatus pid self uid gid p f).flatten := by
  have hstate : ∀ t, ('\t' :: stateOf self :: t).dropWhile blank = stateOf self :: t := by
    cases self <;> exact fun _ => rfl
  simp only [StatusSays, status_value]
  simp [statusPairs, statusRows, List.lookup_cons, num_value, kB_value, comm_value, hstate]

def ioPairs : List (Text × Text) :=
  [("rchar".toList, ' ' :: num f.io.readTransferCount.toNat),
    ("wchar".toList, ' ' :: num f.io.writeTransferCount.toNat),
    ("syscr".toList, ' ' :: num f.io.readOperationCount.toNat),
    ("syscw".toList, ' ' :: num f.io.writeOperationCount.toNat),
    ("read_bytes".toList, ' ' :: num f.io.readTransferCount.toNat),
    ("write_bytes".toList, ' ' :: num f.io.writeTransferCount.toNat),
    ("cancelled_write_bytes".toList, ' ' :: num 0)]

theorem genIo_rows :
    (genIo f).flatten = unlines ((ioPairs f).map fun r => r.1 ++ ':' :: r.2) := by
  simp [genIo, ioPairs, unlines]

theorem ioSays_genIo : IoSays f (genIo f).flatten := by
  have hclean : ∀ r ∈ ioPairs f, (':' ∉ r.1 ∧ '\n' ∉ r.1) ∧ '\n' ∉ r.2 := by
    simp [ioPairs, num_clean]
  have hvalue : ∀ n, (' ' :: num n).dropWhile blank = num n := num_value
  simp only [IoSays, genIo_rows, value_rows hclean]
  simp [ioPairs, List.lookup_cons, hvalue]

/-- **The files say what the process is.** Whatever the image is called, whatever its counters are
and whichever allocations fail: a `stat` that is served has 52 fields for a reader that splits at
blanks and the same ones for a reader that looks for the name's last parenthesis, and each number
has the place of its field. In a `statm`, `status` or `io` the same facts are found at their place or
by their key. -/
theorem pid_files_read_back (allocs : Nat → Buf.Alloc) :
    (∃ r, Buf.generate (genStat pid self p f) allocs = some r ∧ ∀ s ∈ r, StatSays pid self p f s) ∧
    (∃ r, Buf.generate (genStatm f) allocs = some r ∧
      ∀ s ∈ r, readRow ' ' '\n' 7 s = some (statmNumbers f, [])) ∧
    (∃ r, Buf.generate (genStatus pid self uid gid p f) allocs = some r ∧
      ∀ s ∈ r, StatusSays pid self p f s) ∧
    ∃ r, Buf.generate (genIo f) allocs = some r ∧ ∀ s ∈ r, IoSays f s := by
  have hserved : ∀ {pieces : List Text} {Says : Text → Prop}, Says pieces.flatten →
      ∃ r, Buf.generate pieces allocs = some r ∧ ∀ s ∈ r, Says s := by
    intro pieces Says hsays
    obtain ⟨r, hr, hall⟩ := Buf.generate_printed pieces allocs
    exact ⟨r, hr, fun s hs => hall s hs ▸ hsays⟩
  exact ⟨hserved (statSays_genStat pid self p f), hserved (readRow_genStatm f),
    hserved (statusSays_genStatus pid self uid gid p f), hserved (ioSays_genIo f)⟩

end ApeShim.Procfs
