import ApeShim.Procfs.Content

/-!
The answers served from memory: links (`core/links.c`), `__ape_shim_procfs_vstat` and
`virtual_open` (`core/open.c`), and listings (`core/virtdir.c`). Each decides on its own
what a parsed path is.
-/

namespace ApeShim.Procfs

/-! ## Links -/

def linkNames : List Text := ["exe", "cwd", "root"].map String.toList

/-- `spelled_self`, of what follows "/proc". -/
def spelledSelf (sub : Text) : Bool :=
  (strip sub).take 4 = "self".toList &&
    ((strip sub).drop 4 = [] || ((strip sub).drop 4).head? = some '/')

/-- `pc_link_name`. -/
def pcLinkName (n : Node) : Option Text :=
  if n.kind ≠ .pidSub then none
  else if n.name = "task".toList then (lastOf n.rest).filter (· ∈ linkNames)
  else if n.rest ≠ [] then none
  else if n.name ∈ linkNames then some n.name
  else none

/-- `__ape_shim_procfs_link_mode`, of what follows "/proc". -/
def Host.linkMode (h : Host) (sub : Text) : Nat :=
  let n := h.pcParse sub
  if n.kind = .pidDir ∧ spelledSelf sub = true then
    if after (strip sub) = [] then 0o777 else 0
  else if n.kind ≠ .pidSub then 0
  else if (pcLinkName n).isSome then 0o777
  else if n.name = "fd".toList ∧ n.rest ≠ [] ∧ '/' ∉ n.rest then 0o700
  else 0

/-- `atoi`. -/
def atoi (s : Text) : Int :=
  let s := s.dropWhile Char.isWhitespace
  let value (s : Text) : Nat := Nat.ofDigitChars 10 (s.takeWhile Char.isDigit) 0
  match s with
  | '-' :: s => -value s
  | '+' :: s => value s
  | s => value s

/-- What `snprintf` leaves in a buffer, where all of it was to fit. -/
def printed (text : Text) (bufsiz : Nat) : Option Text :=
  if 0 < text.length ∧ text.length ≤ bufsiz then some (text.take (bufsiz - 1)) else none

/-- `link_of_node`. -/
def Host.linkOfNode (h : Host) (n : Node) (sub : Text) (bufsiz : Nat) : Option Text :=
  if n.kind = .pidDir ∧ spelledSelf sub = true ∧ (strip sub).dropWhile (· ≠ '/') = [] then
    printed (Nat.toDigits 10 n.pid.toNat) bufsiz
  else if n.kind ≠ .pidSub then none
  else
    match pcLinkName n with
    | some link => h.pidLink n.pid link bufsiz
    | none =>
        if n.name = "fd".toList ∧ n.rest ≠ [] ∧ '/' ∉ n.rest then
          match ((h.fds n.pid).take 512).find? fun e => (e.fd.toNat : Int) = atoi n.rest with
          | some e => printed e.text bufsiz
          | none => none
        else none

/-! ## Directories and content -/

/-- `is_dir_node`. -/
def Host.isDirNode (h : Host) (n : Node) : Bool :=
  match n.kind with
  | .root | .pidDir | .netDir => true
  | .pidSub =>
      if n.name = "fd".toList ∨ n.name = "net".toList then n.rest = []
      else if n.name = "task".toList then n.rest = [] || '/' ∉ n.rest
      else false
  | .sys => (h.genSysFile n.rest).isNone
  | _ => false

/-- `content_exists`. -/
def Host.contentExists (h : Host) (n : Node) : Bool :=
  match n.kind with
  | .top => n.name ∈ topFiles
  | .netFile => n.name ∈ netFiles
  | .pidSub =>
      if h.alive n.pid = false then false
      else if n.rest = [] then n.name ∈ pidVolatile ++ pidStable
      else if n.name = "task".toList then (lastOf n.rest).any (· ∈ pidVolatile ++ pidStable)
      else if n.name = "net".toList ∧ '/' ∉ n.rest then n.rest ∈ netFiles
      else false
  | _ => false

inductive VStat
  /-- -2 -/
  | notOurs
  /-- -1 and an errno -/
  | failed
  | ok (st : Stat)
  deriving DecidableEq

def dirStat : Stat := ⟨.dir, 0o555, 2⟩

def regStat : Stat := ⟨.reg, 0o444, 1⟩

/-- The stat of a path that is no link. -/
def Host.statNode (h : Host) (n : Node) : VStat :=
  let content := if h.contentExists n then VStat.ok regStat else .failed
  match n.kind with
  | .root | .netDir => .ok dirStat
  | .pidDir => if h.alive n.pid then .ok dirStat else .failed
  | .pidSub =>
      if h.alive n.pid = false then .failed else if h.isDirNode n then .ok dirStat else content
  | .sys =>
      if n.rest = [] then .ok dirStat
      else if (h.genSysFile n.rest).isSome then .ok regStat
      else if n.rest ∈ sysDirs then .ok dirStat
      else .failed
  | _ => content

/-- What a link's target stats as. -/
def Host.statTarget (h : Host) (target : Text) : VStat :=
  if target = [] then .failed
  else if target.head? = some '/' ∧ target.tail ≠ [] then
    match h.stat target with
    | some st => .ok st
    | none => .failed
  else if target.take 7 = "socket:".toList then .ok ⟨.sock, 0o777, 1⟩
  else if target.take 5 = "pipe:".toList then .ok ⟨.fifo, 0o600, 1⟩
  else if target.take 11 = "anon_inode:".toList then .ok ⟨.reg, 0o600, 1⟩
  else .ok dirStat

/-- `__ape_shim_procfs_vstat` of an absolute path. -/
def Host.vstat (h : Host) (path : Text) (nofollow : Bool) : VStat :=
  match procSub path with
  | none => .notOurs
  | some sub =>
      let lmode := h.linkMode sub
      if lmode ≠ 0 then
        if nofollow then .ok ⟨.lnk, lmode, 1⟩
        else
          match h.linkOfNode (h.pcParse sub) sub 511 with
          | some target => h.statTarget target
          | none => .failed
      else h.statNode (h.pcParse sub)

/-! ## Listings -/

/-- `struct pfs_virtent`: the name is cut to its field. -/
def entry (type : FType) (name : Text) : Text × FType := (name.take 31, type)

def decimal (n : Nat) : Text := Nat.toDigits 10 n

theorem decimal_length (p : UInt32) : (decimal p.toNat).length ≤ 10 :=
  (Nat.length_toDigits_le_iff (by decide) (by decide)).mpr (Nat.lt_trans p.toNat_lt (by decide))

theorem strtoul_decimal (p : UInt32) : strtoul ((decimal p.toNat).take 63) = p := by
  have hlen : (decimal p.toNat).length ≤ 10 := decimal_length p
  have hdigits : (decimal p.toNat).takeWhile Char.isDigit = decimal p.toNat := by
    rw [List.takeWhile_eq_self_iff]
    intro c hc
    exact Nat.isDigit_of_mem_toDigits (by decide) (by decide) hc
  have hlt := p.toNat_lt
  rw [List.take_of_length_le (by omega), strtoul, hdigits, decimal, Nat.ofDigitChars_ten_toDigits,
    Nat.min_eq_left (by omega), UInt32.ofNat_toNat]

theorem decimal_head (n : Nat) : (decimal n).head?.any Char.isDigit = true := by
  have hne : decimal n ≠ [] := Nat.toDigits_ne_nil
  cases hd : decimal n with
  | nil => exact absurd hd hne
  | cons c s =>
    have hc : c ∈ decimal n := by simp [hd]
    simpa using Nat.isDigit_of_mem_toDigits (by decide) (by decide) hc

def dots : List (Text × FType) := [".".toList, "..".toList].map (entry .dir)

/-- `pid_entries`. -/
def pidEntries (thread : Bool) : List (Text × FType) :=
  dots ++ pidVolatile.map (entry .reg) ++ pidStable.map (entry .reg) ++ linkNames.map (entry .lnk) ++
    (if thread then [] else ["task", "net", "fd"].map (entry .dir ∘ String.toList))

/-- `root_entries`. -/
def Host.rootEntries (h : Host) : List (Text × FType) :=
  dots ++ h.procs.map (fun p => entry .dir (decimal p.toNat)) ++ [entry .lnk "self".toList] ++
    topFiles.map (entry .reg) ++ ["net", "sys"].map (entry .dir ∘ String.toList)

/-- `net_entries`. -/
def netEntries : List (Text × FType) := dots ++ netFiles.map (entry .reg)

/-- The thread ids of a process, itself where there are none. -/
def Host.tids (h : Host) (pid : UInt32) : List Text :=
  if (h.threads pid).take 512 = [] then [decimal pid.toNat]
  else ((h.threads pid).take 512).map fun t => decimal t.toNat

/-- The names of its descriptors, through a field of 16 bytes. -/
def Host.fdNames (h : Host) (pid : UInt32) : List Text :=
  ((h.fds pid).take 512).map fun e => (decimal e.fd.toNat).take 15

inductive Listing
  /-- -1 -/
  | notListed
  /-- -2, a process that is gone -/
  | absent
  | entries (es : List (Text × FType))
  deriving DecidableEq

/-- `list_node`. -/
def Host.listNode (h : Host) (n : Node) : Listing :=
  let living (es : List (Text × FType)) : Listing := if h.alive n.pid then .entries es else .absent
  match n.kind with
  | .root => .entries h.rootEntries
  | .netDir => .entries netEntries
  | .pidDir => living (pidEntries false)
  | .pidSub =>
      if n.name = "task".toList then
        if h.alive n.pid = false then .absent
        else if n.rest = [] then .entries (dots ++ (h.tids n.pid).map (entry .dir))
        else if '/' ∉ n.rest then .entries (pidEntries true)
        else .notListed
      else if n.name = "net".toList ∧ n.rest = [] then living netEntries
      else if n.name = "fd".toList ∧ n.rest = [] then
        living (dots ++ (h.fdNames n.pid).map (entry .lnk))
      else .notListed
  | _ => .notListed

/-- `__ape_shim_procfs_virtual_dir`. -/
def Host.virtualDir (h : Host) (path : Text) : Listing :=
  match procSub path with
  | none => .notListed
  | some sub => h.listNode (h.pcParse sub)

/-! ## Opening -/

structure OpenFlags where
  write : Bool := false
  directory : Bool := false
  nofollow : Bool := false

inductive Opened
  /-- -2 -/
  | declined
  /-- a memory descriptor of the directory -/
  | directory
  /-- the target of a link is opened in its place -/
  | target (path : Text)
  /-- a memory descriptor of this text -/
  | content (text : Text)
  deriving DecidableEq

/-- `__ape_shim_procfs_open`, with `virtual_open`. -/
def Host.procfsOpen (h : Host) (slots : Slots) (t : Int) (path : Text) (flags : OpenFlags) :
    Slots × Opened :=
  match procSub path with
  | none => (slots, .declined)
  | some sub =>
      let n := h.pcParse sub
      if flags.write then (slots, .declined)
      else if h.isDirNode n then
        (slots, if n.pid ≠ 0 ∧ h.alive n.pid = false then .declined else .directory)
      else if flags.directory then (slots, .declined)
      else
        match pcLinkName n with
        | some link =>
            (slots,
              if flags.nofollow then .declined
              else
                match h.pidLink n.pid link 599 with
                | some (c :: target) => .target (c :: target)
                | _ => .declined)
        | none =>
            match h.pcGenNode slots t n with
            | (slots, some text) => (slots, .content text)
            | (slots, none) => (slots, .declined)

end ApeShim.Procfs
