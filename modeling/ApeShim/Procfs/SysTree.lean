import ApeShim.Procfs.Grammar

/-!
The virtual /sys of Apple Silicon (`shim/procfs/xnu.c`): the kind of a path, its listing and its
content each split the path again, into at most six components of at most 63 bytes. Over them, the
tree that they are meant to be of.
-/

namespace ApeShim.XnuSys
open Procfs

/-! ## Splitting -/

/-- The loop of `sys_split`, with room for so many components. -/
def splitFrom : Nat → Text → List Text
  | 0, _ => []
  | n + 1, p => if p = [] then [] else comp 64 p :: splitFrom n (after p)

/-- `sys_split` -/
def sysSplit (path : Text) : List Text := splitFrom 6 (strip path)

/-! ## The interfaces -/

/-- `struct pfs_ifstat` -/
structure IfStat where
  name : Text
  name_lt : name.length < 16
  rxBytes : UInt64
  txBytes : UInt64
  rxPkts : UInt64
  txPkts : UInt64
  rxErrs : UInt64
  txErrs : UInt64
  rxDrop : UInt64
  txDrop : UInt64
  mtu : UInt32
  up : Bool
  /-- the first `maclen` bytes of `mac` -/
  mac : List UInt8
  speedMbps : UInt64

/-- What the kernel says. -/
structure Host where
  /-- `pfs_xnu_ifstats` -/
  ifs : List IfStat
  /-- `hw.ncpu` -/
  hwNcpu : Int

/-- `ncpu_of` -/
def Host.ncpu (h : Host) : Nat := if 0 < h.hwNcpu then h.hwNcpu.toNat else 1

/-- `ifname_known` -/
def Host.known (h : Host) (name : Text) : Bool := h.ifs.any fun f => decide (f.name = name)

/-- `sys_net_files` -/
def sysNetFiles : List Text := ["mtu", "operstate", "address", "carrier", "speed"].map String.toList

/-- `sys_net_stats` -/
def sysNetStats : List Text :=
  ["rx_bytes", "tx_bytes", "rx_packets", "tx_packets", "rx_errors", "tx_errors", "rx_dropped",
    "tx_dropped"].map String.toList

/-- `sys_cpu_files` -/
def sysCpuFiles : List Text := ["online", "possible", "present"].map String.toList

/-! ## The kind of a path -/

/-- `pfs_xnu_sysfs_kind` of the components; nothing for -1. -/
def Host.kindOf (h : Host) (c : List Text) : Option FType :=
  let n := c.length
  if n < 1 ∨ c.getD 0 [] ≠ "sys".toList then none
  else if n = 1 then some .dir
  else if c.getD 1 [] = "class".toList then
    if n = 2 then some .dir
    else if c.getD 2 [] ≠ "net".toList then none
    else if n = 3 then some .dir
    else if h.known (c.getD 3 []) = false then none
    else if n = 4 then some .dir
    else if c.getD 4 [] = "statistics".toList then
      if n = 5 then some .dir
      else if n = 6 ∧ c.getD 5 [] ∈ sysNetStats then some .reg
      else none
    else if n = 5 ∧ c.getD 4 [] ∈ sysNetFiles then some .reg
    else none
  else if c.getD 1 [] = "devices".toList then
    if n = 2 then some .dir
    else if c.getD 2 [] ≠ "system".toList then none
    else if n = 3 then some .dir
    else if c.getD 3 [] ≠ "cpu".toList then none
    else if n = 4 then some .dir
    else if n = 5 ∧ c.getD 4 [] ∈ sysCpuFiles then some .reg
    else none
  else none

/-- `pfs_xnu_sysfs_kind` -/
def Host.kind (h : Host) (path : Text) : Option FType := h.kindOf (sysSplit path)

/-! ## Content -/

/-- The value of a leaf, with its newline. -/
def IfStat.value (f : IfStat) (leaf : Text) : Option Text :=
  let line (s : Text) : Option Text := some (s ++ ['\n'])
  if leaf = "rx_bytes".toList then line (decimal f.rxBytes.toNat)
  else if leaf = "tx_bytes".toList then line (decimal f.txBytes.toNat)
  else if leaf = "rx_packets".toList then line (decimal f.rxPkts.toNat)
  else if leaf = "tx_packets".toList then line (decimal f.txPkts.toNat)
  else if leaf = "rx_errors".toList then line (decimal f.rxErrs.toNat)
  else if leaf = "tx_errors".toList then line (decimal f.txErrs.toNat)
  else if leaf = "rx_dropped".toList then line (decimal f.rxDrop.toNat)
  else if leaf = "tx_dropped".toList then line (decimal f.txDrop.toNat)
  else if leaf = "mtu".toList then line (decimal f.mtu.toNat)
  else if leaf = "operstate".toList then line (if f.up then "up".toList else "down".toList)
  else if leaf = "carrier".toList then line (if f.up then "1".toList else "0".toList)
  else if leaf = "speed".toList then line (decimal f.speedMbps.toNat)
  else if leaf = "address".toList then
    line ([':'].intercalate (f.mac.map fun b =>
      [Nat.digitChar (b.toNat / 16), Nat.digitChar (b.toNat % 16)]))
  else none

/-- The loop over the interfaces: the last of that name. -/
def Host.lastNamed (h : Host) (name : Text) : Option IfStat :=
  h.ifs.foldl (fun f x => if x.name = name then some x else f) none

/-- `pfs_xnu_gen_sysfs` -/
def Host.gen (h : Host) (path : Text) : Option Text :=
  let c := sysSplit path
  if h.kind path ≠ some .reg then none
  else if c.getD 1 [] = "devices".toList then some ("0-".toList ++ decimal (h.ncpu - 1) ++ ['\n'])
  else (h.lastNamed (c.getD 3 [])).bind fun f =>
    f.value (if c.length = 6 then c.getD 5 [] else c.getD 4 [])

/-! ## Listing and opening -/

/-- The entries that `pfs_xnu_sysfs_list` adds for the components of a directory. -/
def Host.entriesOf (h : Host) (c : List Text) : List (Text × FType) :=
  let n := c.length
  dots ++
    (if n = 1 then ["class", "devices"].map (entry .dir ∘ String.toList)
    else if c.getD 1 [] = "class".toList then
      if n = 2 then [entry .dir "net".toList]
      else if n = 3 then h.ifs.map fun f => entry .dir f.name
      else if n = 4 then entry .dir "statistics".toList :: sysNetFiles.map (entry .reg)
      else sysNetStats.map (entry .reg)
    else
      if n = 2 then [entry .dir "system".toList]
      else if n = 3 then [entry .dir "cpu".toList]
      else sysCpuFiles.map (entry .reg))

/-- `pfs_xnu_sysfs_list`; nothing for -1. -/
def Host.list (h : Host) (path : Text) : Option (List (Text × FType)) :=
  if h.kind path ≠ some .dir then none else some (h.entriesOf (sysSplit path))

/-- `__ape_shim_procfs_open` on a host that is not NT; `proc` opens a path under /proc. -/
def Host.open (h : Host) (proc : Text → Opened) (path : Text) (flags : OpenFlags) : Opened :=
  if path.take 5 = "/sys/".toList then
    if flags.write then .declined
    else match h.kind path with
      | none => .declined
      | some .dir => .directory
      | some _ =>
        if flags.directory then .declined
        else match h.gen path with
          | none => .declined
          | some text => .content text
  else if (procSub path).isSome then proc path
  else .declined

/-! ## The tree -/

/-- All the components of a path, at their length; repeated slashes are read as one. -/
def componentsFrom (p : Text) : List Text :=
  if p = [] then [] else word p :: componentsFrom (after p)
  termination_by p.length
  decreasing_by
    rename_i hp
    obtain ⟨c, p, rfl⟩ := List.exists_cons_of_ne_nil hp
    rw [after, strip]
    by_cases hc : c = '/'
    · subst hc
      simpa using Nat.lt_succ_of_le (List.dropWhile_sublist (l := p) _).length_le
    · rw [List.dropWhile_cons_of_pos (by simpa using hc)]
      exact Nat.lt_succ_of_le
        (((List.dropWhile_sublist _).trans (List.dropWhile_sublist _)).length_le)

def components (path : Text) : List Text := componentsFrom (strip path)

/-- The path of some components. -/
def spell (cs : List Text) : Text := cs.flatMap ('/' :: ·)

/-- What can be reached from /sys through the entries that are listed at each level. -/
inductive Host.Reach (h : Host) : List Text → FType → Prop
  | root : Reach h ["sys".toList] .dir
  | entry {ds : List Text} {es : List (Text × FType)} {c : Text} {t : FType} :
      Reach h ds .dir → h.list (spell ds) = some es → (c, t) ∈ es → Reach h (ds ++ [c]) t

/-- The files of the tree with what is in them. -/
inductive Host.Content (h : Host) : List Text → Text → Prop
  | attr {f : IfStat} {leaf v : Text} (hf : f ∈ h.ifs) (hleaf : leaf ∈ sysNetFiles)
      (hv : f.value leaf = some v) :
      Content h ["sys".toList, "class".toList, "net".toList, f.name, leaf] v
  | stat {f : IfStat} {leaf v : Text} (hf : f ∈ h.ifs) (hleaf : leaf ∈ sysNetStats)
      (hv : f.value leaf = some v) :
      Content h ["sys".toList, "class".toList, "net".toList, f.name, "statistics".toList, leaf] v
  | cpu {leaf : Text} (hleaf : leaf ∈ sysCpuFiles) :
      Content h ["sys".toList, "devices".toList, "system".toList, "cpu".toList, leaf]
        ("0-".toList ++ decimal (h.ncpu - 1) ++ ['\n'])

/-- Kind, listing, content and open agree on a path. -/
structure Host.Coherent (h : Host) (proc : Text → Opened) (path : Text) : Prop where
  kind : ∀ t, h.kind path = some t ↔ h.Reach (components path) t
  content : h.kind path = some .reg → ∃ v, h.gen path = some v ∧ h.Content (components path) v
  opened : h.kind path = some .dir → ∀ flags : OpenFlags, flags.write = false →
    h.open proc path flags = .directory
  listed : h.kind path = some .dir → h.list path ≠ none

/-- The tree itself, the dots apart. -/
inductive Host.Node (h : Host) : List Text → FType → Prop
  | root : Node h ["sys".toList] .dir
  | class : Node h ["sys".toList, "class".toList] .dir
  | net : Node h ["sys".toList, "class".toList, "net".toList] .dir
  | iface {i : Text} (hi : h.known i = true) :
      Node h ["sys".toList, "class".toList, "net".toList, i] .dir
  | attr {i leaf : Text} (hi : h.known i = true) (hleaf : leaf ∈ sysNetFiles) :
      Node h ["sys".toList, "class".toList, "net".toList, i, leaf] .reg
  | statistics {i : Text} (hi : h.known i = true) :
      Node h ["sys".toList, "class".toList, "net".toList, i, "statistics".toList] .dir
  | stat {i leaf : Text} (hi : h.known i = true) (hleaf : leaf ∈ sysNetStats) :
      Node h ["sys".toList, "class".toList, "net".toList, i, "statistics".toList, leaf] .reg
  | devices : Node h ["sys".toList, "devices".toList] .dir
  | system : Node h ["sys".toList, "devices".toList, "system".toList] .dir
  | cpu : Node h ["sys".toList, "devices".toList, "system".toList, "cpu".toList] .dir
  | cpuFile {leaf : Text} (hleaf : leaf ∈ sysCpuFiles) :
      Node h ["sys".toList, "devices".toList, "system".toList, "cpu".toList, leaf] .reg

/-- Components behind a statistics file. -/
def Host.Deep (h : Host) (cs : List Text) : Prop := 6 < cs.length ∧ h.Node (cs.take 6) .reg

/-- `.` and `..` -/
def Dot (c : Text) : Prop := c = ".".toList ∨ c = "..".toList

/-- A dot in a directory. -/
def Host.Dotted (h : Host) (cs : List Text) : Prop :=
  ∃ ds c, cs = ds ++ [c] ∧ h.Node ds .dir ∧ Dot c

/-- The path does not go on behind a statistics file; it does not end in a dot, unless an interface is
called so; and a directory is spelled from `/sys/` on. -/
structure Host.Plain (h : Host) (path : Text) : Prop where
  deep : ¬ h.Deep (components path)
  dotted : h.Dotted (components path) → h.Node (components path) .dir
  spelled : h.Node (components path) .dir → path.take 5 = "/sys/".toList

/-! ## Components -/

section
variable {c : Text} {cs ds : List Text}

/-- What a component can be. -/
structure Component (c : Text) : Prop where
  ne_nil : c ≠ []
  noSlash : '/' ∉ c

theorem splitFrom_eq (n : Nat) (p : Text) :
    splitFrom n p = ((componentsFrom p).take n).map (·.take 63) := by
  induction n generalizing p with
  | zero => simp [splitFrom]
  | succ n ih =>
    rw [splitFrom, componentsFrom]
    split
    · simp
    · rw [ih, List.take_succ_cons, List.map_cons, comp]

theorem sysSplit_eq (path : Text) :
    sysSplit path = ((components path).take 6).map (·.take 63) := splitFrom_eq 6 _

theorem componentsFrom_spec (p : Text) (hp : p.head? ≠ some '/') :
    ∀ c ∈ componentsFrom p, Component c := by
  induction p using componentsFrom.induct with
  | case1 => simp [componentsFrom]
  | case2 p hne ih =>
    rw [componentsFrom, if_neg hne, List.forall_mem_cons]
    exact ⟨⟨word_ne_nil hp hne, noSlash_word p⟩, ih (head_strip _)⟩

theorem components_spec (path : Text) : ∀ c ∈ components path, Component c :=
  componentsFrom_spec _ (head_strip path)

theorem components_join (hc : Component c) (s : Text) :
    components ('/' :: c) = [c] ∧ components ('/' :: join c s) = c :: components s := by
  have hhead : ∀ r, strip ('/' :: (c ++ r)) = c ++ r := fun r => by
    obtain ⟨x, t, rfl⟩ := List.exists_cons_of_ne_nil hc.ne_nil
    rw [strip_slash, strip_of_head]
    intro h0
    refine hc.noSlash ?_
    rw [List.cons_append, List.head?_cons, Option.some_inj] at h0
    exact h0 ▸ List.mem_cons_self
  constructor
  · have h := hhead []
    rw [List.append_nil] at h
    rw [components, h, componentsFrom, if_neg hc.ne_nil, word_of_noSlash hc.noSlash, after, ← behind,
      behind_of_noSlash hc.noSlash, strip, List.dropWhile_nil, componentsFrom, if_pos rfl]
  · rw [join, components, hhead, componentsFrom, if_neg (by simp), ← join, word_join,
      word_of_noSlash hc.noSlash, after, ← behind, behind_join hc.noSlash, strip_slash, components]

theorem components_spell (h : ∀ c ∈ cs, Component c) : components (spell cs) = cs := by
  induction cs with
  | nil => rw [components, spell, List.flatMap_nil, strip, List.dropWhile_nil, componentsFrom, if_pos rfl]
  | cons c cs ih =>
    rw [List.forall_mem_cons] at h
    cases cs with
    | nil =>
      rw [spell, List.flatMap_cons, List.flatMap_nil, List.append_nil]
      exact (components_join h.1 []).1
    | cons d cs =>
      have hspell : spell (c :: d :: cs) = '/' :: join c (d ++ spell cs) := rfl
      have hrest : components (d ++ spell cs) = components (spell (d :: cs)) := by
        rw [components, components]
        exact congrArg componentsFrom (strip_slash _).symm
      rw [hspell, (components_join h.1 _).2, hrest, ih h.2]

end

/-! ## Kinds -/

section
variable {h : Host} {cs ds : List Text} {c path : Text} {t : FType}

theorem getD_cut (cs : List Text) (i : Nat) :
    (cs.map (·.take 63)).getD i [] = (cs.getD i []).take 63 := by
  rw [List.getD_eq_getElem?_getD, List.getElem?_map, List.getD_eq_getElem?_getD]
  cases cs[i]? <;> rfl

theorem known_cut (h : Host) (x : Text) : h.known (x.take 63) = h.known x := by
  have hcut : ∀ f : IfStat, f.name = x.take 63 ↔ f.name = x := fun f => by
    have hf := f.name_lt
    rw [eq_comm, take_eq_iff (Nat.lt_trans hf (by decide)), eq_comm]
  simp only [Host.known, hcut]

/-- Cutting the components changes nothing: the names they are compared with are shorter. -/
theorem kindOf_cut (h : Host) (cs : List Text) : h.kindOf (cs.map (·.take 63)) = h.kindOf cs := by
  have hstats : ∀ x : Text, x.take 63 ∈ sysNetStats ↔ x ∈ sysNetStats := fun x =>
    take_mem_iff (by decide)
  have hfiles : ∀ x : Text, x.take 63 ∈ sysNetFiles ↔ x ∈ sysNetFiles := fun x =>
    take_mem_iff (by decide)
  have hcpu : ∀ x : Text, x.take 63 ∈ sysCpuFiles ↔ x ∈ sysCpuFiles := fun x =>
    take_mem_iff (by decide)
  have hlit : ∀ (x : Text) (l : String), l.toList.length < 63 →
      (x.take 63 = l.toList ↔ x = l.toList) := fun x l hl => take_eq_iff hl
  simp only [Host.kindOf, getD_cut, List.length_map, known_cut, hstats, hfiles, hcpu, ne_eq,
    hlit _ "sys" (by decide), hlit _ "class" (by decide), hlit _ "net" (by decide),
    hlit _ "statistics" (by decide), hlit _ "devices" (by decide), hlit _ "system" (by decide),
    hlit _ "cpu" (by decide)]

theorem kind_eq (h : Host) (path : Text) : h.kind path = h.kindOf ((components path).take 6) := by
  rw [Host.kind, sysSplit_eq, kindOf_cut]

theorem netFile_ne {leaf : Text} (hleaf : leaf ∈ sysNetFiles) : leaf ≠ "statistics".toList := by
  rintro rfl
  revert hleaf
  decide

theorem Host.Node.kindOf (hn : h.Node cs t) : h.kindOf cs = some t := by
  have hknown : ∀ {i}, h.known i = true → ¬ h.known i = false := fun hi => by simp [hi]
  cases hn with
  | root | «class» | net | devices | system | cpu => rfl
  | iface hi => exact if_neg (hknown hi)
  | attr hi hleaf =>
    exact (if_neg (hknown hi)).trans ((if_neg (netFile_ne hleaf)).trans (if_pos ⟨rfl, hleaf⟩))
  | statistics hi => exact if_neg (hknown hi)
  | @stat i leaf hi hleaf =>
    have hfile : 6 = 6 ∧ leaf ∈ sysNetStats := ⟨rfl, hleaf⟩
    exact (if_neg (hknown hi)).trans (if_pos hfile)
  | cpuFile hleaf => exact if_pos ⟨rfl, hleaf⟩

theorem Host.Node.length_le (hn : h.Node cs t) : cs.length ≤ 6 := by
  cases hn <;> simp

/-- So many components one by one. -/
theorem getD_range {n : Nat} (hn : cs.length = n) : (List.range n).map (cs.getD · []) = cs := by
  refine List.ext_getElem (by simp [hn]) fun i hi hi' => ?_
  rw [List.getElem_map, List.getElem_range, List.getD_eq_getElem _ _ hi']

theorem of_ite {α : Type} {p : Prop} [Decidable p] {x y : Option α} {a : α}
    (hk : (if p then x else y) = some a) : (p ∧ x = some a) ∨ (¬ p ∧ y = some a) := by
  by_cases hp : p
  · rw [if_pos hp] at hk
    exact Or.inl ⟨hp, hk⟩
  · rw [if_neg hp] at hk
    exact Or.inr ⟨hp, hk⟩

theorem of_ite_none {α : Type} {p : Prop} [Decidable p] {y : Option α} {a : α}
    (hk : (if p then none else y) = some a) : ¬ p ∧ y = some a := by
  rcases of_ite hk with ⟨-, hk⟩ | hk
  · cases hk
  · exact hk

theorem node_of_kindOf (hk : h.kindOf cs = some t) : h.Node cs t := by
  have found : ∀ n, cs.length = n → h.Node ((List.range n).map (cs.getD · [])) t → h.Node cs t :=
    fun n hn hx => getD_range hn ▸ hx
  obtain ⟨h0, hk⟩ := of_ite_none hk
  have h0 := not_not.mp (not_or.mp h0).2
  obtain ⟨hn, hk⟩ | ⟨-, hk⟩ := of_ite hk
  · cases hk
    refine found 1 hn ?_
    show h.Node [cs.getD 0 []] .dir
    rw [h0]
    exact .root
  obtain ⟨h1, hk⟩ | ⟨-, hk⟩ := of_ite hk
  · obtain ⟨hn, hk⟩ | ⟨-, hk⟩ := of_ite hk
    · cases hk
      refine found 2 hn ?_
      show h.Node [cs.getD 0 [], cs.getD 1 []] .dir
      rw [h0, h1]
      exact .class
    obtain ⟨h2, hk⟩ := of_ite_none hk
    have h2 := not_not.mp h2
    obtain ⟨hn, hk⟩ | ⟨-, hk⟩ := of_ite hk
    · cases hk
      refine found 3 hn ?_
      show h.Node [cs.getD 0 [], cs.getD 1 [], cs.getD 2 []] .dir
      rw [h0, h1, h2]
      exact .net
    obtain ⟨hi, hk⟩ := of_ite_none hk
    have hi := Bool.eq_true_of_not_eq_false hi
    obtain ⟨hn, hk⟩ | ⟨-, hk⟩ := of_ite hk
    · cases hk
      refine found 4 hn ?_
      show h.Node [cs.getD 0 [], cs.getD 1 [], cs.getD 2 [], cs.getD 3 []] .dir
      rw [h0, h1, h2]
      exact .iface hi
    obtain ⟨h4, hk⟩ | ⟨-, hk⟩ := of_ite hk
    · obtain ⟨hn, hk⟩ | ⟨-, hk⟩ := of_ite hk
      · cases hk
        refine found 5 hn ?_
        show h.Node [cs.getD 0 [], cs.getD 1 [], cs.getD 2 [], cs.getD 3 [], cs.getD 4 []] .dir
        rw [h0, h1, h2, h4]
        exact .statistics hi
      obtain ⟨⟨hn, hstat⟩, hk⟩ | ⟨-, hk⟩ := of_ite hk
      · cases hk
        refine found 6 hn ?_
        show h.Node [cs.getD 0 [], cs.getD 1 [], cs.getD 2 [], cs.getD 3 [], cs.getD 4 [],
          cs.getD 5 []] .reg
        rw [h0, h1, h2, h4]
        exact .stat hi hstat
      · cases hk
    obtain ⟨⟨hn, hfile⟩, hk⟩ | ⟨-, hk⟩ := of_ite hk
    · cases hk
      refine found 5 hn ?_
      show h.Node [cs.getD 0 [], cs.getD 1 [], cs.getD 2 [], cs.getD 3 [], cs.getD 4 []] .reg
      rw [h0, h1, h2]
      exact .attr hi hfile
    · cases hk
  obtain ⟨h1, hk⟩ | ⟨-, hk⟩ := of_ite hk
  · obtain ⟨hn, hk⟩ | ⟨-, hk⟩ := of_ite hk
    · cases hk
      refine found 2 hn ?_
      show h.Node [cs.getD 0 [], cs.getD 1 []] .dir
      rw [h0, h1]
      exact .devices
    obtain ⟨h2, hk⟩ := of_ite_none hk
    have h2 := not_not.mp h2
    obtain ⟨hn, hk⟩ | ⟨-, hk⟩ := of_ite hk
    · cases hk
      refine found 3 hn ?_
      show h.Node [cs.getD 0 [], cs.getD 1 [], cs.getD 2 []] .dir
      rw [h0, h1, h2]
      exact .system
    obtain ⟨h3, hk⟩ := of_ite_none hk
    have h3 := not_not.mp h3
    obtain ⟨hn, hk⟩ | ⟨-, hk⟩ := of_ite hk
    · cases hk
      refine found 4 hn ?_
      show h.Node [cs.getD 0 [], cs.getD 1 [], cs.getD 2 [], cs.getD 3 []] .dir
      rw [h0, h1, h2, h3]
      exact .cpu
    obtain ⟨⟨hn, hfile⟩, hk⟩ | ⟨-, hk⟩ := of_ite hk
    · cases hk
      refine found 5 hn ?_
      show h.Node [cs.getD 0 [], cs.getD 1 [], cs.getD 2 [], cs.getD 3 [], cs.getD 4 []] .reg
      rw [h0, h1, h2, h3]
      exact .cpuFile hfile
    · cases hk
  · cases hk

theorem node_iff : h.Node cs t ↔ h.kindOf cs = some t := ⟨Host.Node.kindOf, node_of_kindOf⟩

theorem Host.Node.reg_of_length (hn : h.Node cs t) (hlen : cs.length = 6) : t = .reg := by
  cases hn with
  | stat => rfl
  | _ => simp at hlen

/-- What the code takes for a file or a directory. -/
theorem kind_iff (h : Host) (path : Text) (t : FType) : h.kind path = some t ↔
    h.Node (components path) t ∨ (h.Deep (components path) ∧ t = .reg) := by
  rw [kind_eq, ← node_iff]
  by_cases hlen : (components path).length ≤ 6
  · rw [List.take_of_length_le hlen]
    refine ⟨Or.inl, fun hn => hn.resolve_right fun hd => ?_⟩
    exact absurd hd.1.1 (by omega)
  · constructor
    · intro hn
      have ht := hn.reg_of_length (by rw [List.length_take]; omega)
      subst ht
      exact Or.inr ⟨⟨by omega, hn⟩, rfl⟩
    · rintro (hn | ⟨hd, rfl⟩)
      · exact absurd hn.length_le hlen
      · exact hd.2

/-! ## Entries -/

theorem mem_dots : (c, t) ∈ dots ↔ Dot c ∧ t = .dir := by
  have hdots : dots = [(".".toList, .dir), ("..".toList, .dir)] := rfl
  rw [hdots, List.mem_cons, List.mem_singleton, Prod.mk.injEq, Prod.mk.injEq, Dot, or_and_right]

theorem mem_map_entry {table : List Text} {type : FType} (ht : ∀ x ∈ table, x.length ≤ 31) :
    (c, t) ∈ table.map (entry type) ↔ c ∈ table ∧ t = type := by
  have heq : table.map (entry type) = table.map fun x => (x, type) :=
    List.map_congr_left fun x hx => by rw [entry, List.take_of_length_le (ht x hx)]
  rw [heq, List.mem_map]
  constructor
  · rintro ⟨x, hx, hxt⟩
    cases hxt
    exact ⟨hx, rfl⟩
  · rintro ⟨hx, rfl⟩
    exact ⟨c, hx, rfl⟩

theorem mem_ifs : (c, t) ∈ h.ifs.map (fun f => entry .dir f.name) ↔ h.known c = true ∧ t = .dir := by
  have hmap : h.ifs.map (fun f => entry .dir f.name) = (h.ifs.map IfStat.name).map (entry .dir) := by
    rw [List.map_map]
    rfl
  rw [hmap, mem_map_entry, Host.known, List.any_eq_true]
  · simp
  · intro x hx
    obtain ⟨f, -, rfl⟩ := List.mem_map.mp hx
    exact Nat.le_trans (Nat.le_of_lt f.name_lt) (by decide)

theorem some_ite_iff {p : Prop} [Decidable p] {d : FType} :
    (if p then some d else none) = some t ↔ p ∧ t = d := by
  by_cases hp : p <;> simp [hp, eq_comm]

theorem none_ite_iff {p : Prop} [Decidable p] {d : FType} :
    (if p then none else some d) = some t ↔ ¬ p ∧ t = d := by
  by_cases hp : p <;> simp [hp, eq_comm]

theorem netFile_length : ∀ x ∈ sysNetFiles, x.length ≤ 31 := by decide

theorem netStat_length : ∀ x ∈ sysNetStats, x.length ≤ 31 := by decide

theorem cpuFile_length : ∀ x ∈ sysCpuFiles, x.length ≤ 31 := by decide

/-- A directory lists the dots and what stands in it. -/
theorem mem_entriesOf (hd : h.Node ds .dir) :
    (c, t) ∈ h.entriesOf ds ↔ (Dot c ∧ t = .dir) ∨ h.Node (ds ++ [c]) t := by
  have hone : ∀ {name : Text} {type : FType}, name.length ≤ 31 →
      ((c, t) ∈ [entry type name] ↔ c = name ∧ t = type) := fun {name type} hname => by
    have hmem := @mem_map_entry c t [name] type (by simpa using hname)
    rwa [List.mem_singleton] at hmem
  rw [node_iff]
  cases hd with
  | root =>
    have hentries : h.entriesOf ["sys".toList] =
      dots ++ ["class".toList, "devices".toList].map (entry .dir) := rfl
    have hkind : h.kindOf (["sys".toList] ++ [c]) =
      if c = "class".toList then some .dir else if c = "devices".toList then some .dir else none := rfl
    rw [hentries, hkind, List.mem_append, mem_dots, mem_map_entry (by decide), List.mem_cons,
      List.mem_singleton]
    by_cases hc : c = "class".toList
    · rw [if_pos hc, Option.some_inj]
      exact or_congr_right ⟨fun hx => hx.2.symm, fun ht => ⟨Or.inl hc, ht.symm⟩⟩
    · rw [if_neg hc, some_ite_iff, or_iff_right hc]
  | «class» =>
    have hentries : h.entriesOf ["sys".toList, "class".toList] =
      dots ++ [entry .dir "net".toList] := rfl
    have hkind : h.kindOf (["sys".toList, "class".toList] ++ [c]) =
      if c ≠ "net".toList then none else some .dir := rfl
    rw [hentries, hkind, List.mem_append, mem_dots, hone (by decide), none_ite_iff, not_not]
  | net =>
    have hentries : h.entriesOf ["sys".toList, "class".toList, "net".toList] =
      dots ++ h.ifs.map fun f => entry .dir f.name := rfl
    have hkind : h.kindOf (["sys".toList, "class".toList, "net".toList] ++ [c]) =
      if h.known c = false then none else some .dir := rfl
    rw [hentries, hkind, List.mem_append, mem_dots, mem_ifs, none_ite_iff, Bool.not_eq_false]
  | @iface i hi =>
    have hentries : h.entriesOf ["sys".toList, "class".toList, "net".toList, i] =
      dots ++ ([entry .dir "statistics".toList] ++ sysNetFiles.map (entry .reg)) := rfl
    have hkind : h.kindOf (["sys".toList, "class".toList, "net".toList, i] ++ [c]) =
      if h.known i = false then none
      else if c = "statistics".toList then some .dir
      else if 5 = 5 ∧ c ∈ sysNetFiles then some .reg else none := rfl
    rw [hentries, hkind, if_neg (by simp [hi]), List.mem_append, List.mem_append, mem_dots,
      hone (by decide), mem_map_entry netFile_length]
    by_cases hc : c = "statistics".toList
    · rw [if_pos hc, Option.some_inj]
      exact or_congr_right ⟨fun hx => hx.elim (fun hs => hs.2.symm)
        fun hf => absurd hc (netFile_ne hf.1), fun ht => Or.inl ⟨hc, ht.symm⟩⟩
    · rw [if_neg hc, some_ite_iff]
      exact or_congr_right ((or_iff_right fun hs => hc hs.1).trans (by simp))
  | @statistics i hi =>
    have hentries : h.entriesOf ["sys".toList, "class".toList, "net".toList, i, "statistics".toList] =
      dots ++ sysNetStats.map (entry .reg) := rfl
    have hkind : h.kindOf
        (["sys".toList, "class".toList, "net".toList, i, "statistics".toList] ++ [c]) =
      if h.known i = false then none
      else if 6 = 6 ∧ c ∈ sysNetStats then some .reg else none := rfl
    rw [hentries, hkind, if_neg (by simp [hi]), List.mem_append, mem_dots,
      mem_map_entry netStat_length, some_ite_iff]
    simp
  | devices =>
    have hentries : h.entriesOf ["sys".toList, "devices".toList] =
      dots ++ [entry .dir "system".toList] := rfl
    have hkind : h.kindOf (["sys".toList, "devices".toList] ++ [c]) =
      if c ≠ "system".toList then none else some .dir := rfl
    rw [hentries, hkind, List.mem_append, mem_dots, hone (by decide), none_ite_iff, not_not]
  | system =>
    have hentries : h.entriesOf ["sys".toList, "devices".toList, "system".toList] =
      dots ++ [entry .dir "cpu".toList] := rfl
    have hkind : h.kindOf (["sys".toList, "devices".toList, "system".toList] ++ [c]) =
      if c ≠ "cpu".toList then none else some .dir := rfl
    rw [hentries, hkind, List.mem_append, mem_dots, hone (by decide), none_ite_iff, not_not]
  | cpu =>
    have hentries : h.entriesOf ["sys".toList, "devices".toList, "system".toList, "cpu".toList] =
      dots ++ sysCpuFiles.map (entry .reg) := rfl
    have hkind : h.kindOf
        (["sys".toList, "devices".toList, "system".toList, "cpu".toList] ++ [c]) =
      if 5 = 5 ∧ c ∈ sysCpuFiles then some .reg else none := rfl
    rw [hentries, hkind, List.mem_append, mem_dots, mem_map_entry cpuFile_length, some_ite_iff]
    simp

/-- Cutting the components does not change what is listed either. -/
theorem entriesOf_cut (h : Host) (cs : List Text) :
    h.entriesOf (cs.map (·.take 63)) = h.entriesOf cs := by
  have hclass : ∀ x : Text, x.take 63 = "class".toList ↔ x = "class".toList := fun x =>
    take_eq_iff (by decide)
  simp only [Host.entriesOf, getD_cut, List.length_map, hclass]

theorem list_eq_some (hpath : h.Node (components path) .dir) :
    h.list path = some (h.entriesOf (components path)) := by
  have hkind := (kind_iff h path .dir).mpr (Or.inl hpath)
  rw [Host.list, if_neg (not_not_intro hkind), sysSplit_eq, List.take_of_length_le hpath.length_le,
    entriesOf_cut]

/-- A directory below the root stands in one. -/
theorem Host.Node.parent (hn : h.Node (ds ++ [c]) t) (hds : ds ≠ []) : h.Node ds .dir := by
  obtain ⟨cs, hcs⟩ : ∃ cs, cs = ds ++ [c] := ⟨_, rfl⟩
  have hinit : ds = cs.dropLast := by rw [hcs, List.dropLast_concat]
  rw [← hcs] at hn
  rw [hinit]
  cases hn with
  | root =>
    rw [hinit] at hds
    exact absurd rfl hds
  | «class» | devices => exact .root
  | net => exact .class
  | iface => exact .net
  | attr hi | statistics hi => exact .iface hi
  | stat hi => exact .statistics hi
  | system => exact .devices
  | cpu => exact .system
  | cpuFile => exact .cpu

theorem reach_of_node (hn : h.Node cs t) (hcs : ∀ c ∈ cs, Component c) : h.Reach cs t := by
  induction cs using List.reverseRecOn generalizing t with
  | nil => cases hn
  | append_singleton ds c ih =>
    have hds : ∀ c ∈ ds, Component c := fun x hx => hcs x (List.mem_append_left _ hx)
    cases hnil : ds with
    | nil =>
      rw [hnil, List.nil_append] at hn
      rw [List.nil_append]
      cases hn
      exact .root
    | cons d es =>
      have hdir := hn.parent (by simp [hnil])
      rw [← hnil]
      have hlist := @list_eq_some h (spell ds) (by rwa [components_spell hds])
      refine .entry (ih hdir hds) hlist ?_
      rw [components_spell hds, mem_entriesOf hdir]
      exact Or.inr hn

/-- What can be reached is what stands in the tree, and the dots. -/
theorem reach_iff (hcs : ∀ c ∈ cs, Component c) :
    h.Reach cs t ↔ h.Node cs t ∨ (h.Dotted cs ∧ t = .dir) := by
  constructor
  · intro hr
    induction hr with
    | root => exact Or.inl .root
    | @entry ds es c t _ hlist hmem ih =>
      have hds : ∀ c ∈ ds, Component c := fun x hx => hcs x (List.mem_append_left _ hx)
      have hdir : h.Node ds .dir := by
        have hkind : h.kind (spell ds) = some .dir := by
          by_contra hk
          rw [Host.list, if_pos hk] at hlist
          cases hlist
        rw [kind_iff, components_spell hds] at hkind
        exact hkind.resolve_right fun hd => by cases hd.2
      rw [list_eq_some (by rwa [components_spell hds]), components_spell hds, Option.some_inj] at hlist
      rw [← hlist, mem_entriesOf hdir] at hmem
      rcases hmem with ⟨hc, ht⟩ | hn
      · exact Or.inr ⟨⟨ds, c, rfl, hdir, hc⟩, ht⟩
      · exact Or.inl hn
  · rintro (hn | ⟨⟨ds, c, rfl, hdir, hc⟩, rfl⟩)
    · exact reach_of_node hn hcs
    · have hds : ∀ c ∈ ds, Component c := fun x hx => hcs x (List.mem_append_left _ hx)
      have hlist := @list_eq_some h (spell ds) (by rwa [components_spell hds])
      refine .entry (reach_of_node hdir hds) hlist ?_
      rw [components_spell hds, mem_entriesOf hdir]
      exact Or.inl ⟨hc, rfl⟩

/-! ## Content -/

theorem lastNamed_spec {i : Text} (hi : h.known i = true) :
    ∃ f ∈ h.ifs, f.name = i ∧ h.lastNamed i = some f := by
  rw [Host.known, List.any_eq_true] at hi
  rw [Host.lastNamed]
  generalize h.ifs = fs at hi
  induction fs using List.reverseRecOn with
  | nil =>
    obtain ⟨f, hf, -⟩ := hi
    cases hf
  | append_singleton fs x ih =>
    rw [List.foldl_concat]
    by_cases hx : x.name = i
    · exact ⟨x, by simp, hx, if_pos hx⟩
    · obtain ⟨f, hf, hfi⟩ := hi
      have hfi : f.name = i := of_decide_eq_true hfi
      have hfs : f ∈ fs := by
        rcases List.mem_append.mp hf with hf | hf
        · exact hf
        · rw [List.mem_singleton.mp hf] at hfi
          exact absurd hfi hx
      obtain ⟨g, hg, hgi, hlast⟩ := ih ⟨f, hfs, decide_eq_true hfi⟩
      exact ⟨g, List.mem_append_left _ hg, hgi, by rw [if_neg hx, hlast]⟩

theorem value_defined (f : IfStat) {leaf : Text} (hleaf : leaf ∈ sysNetFiles ++ sysNetStats) :
    ∃ v, f.value leaf = some v := by
  have htable : sysNetFiles ++ sysNetStats = ["mtu".toList, "operstate".toList, "address".toList,
    "carrier".toList, "speed".toList, "rx_bytes".toList, "tx_bytes".toList, "rx_packets".toList,
    "tx_packets".toList, "rx_errors".toList, "tx_errors".toList, "rx_dropped".toList,
    "tx_dropped".toList] := rfl
  rw [htable] at hleaf
  repeat' rcases List.mem_cons.mp hleaf with rfl | hleaf
  all_goals first | exact ⟨_, rfl⟩ | cases hleaf

/-- A file has the value of its leaf, of an interface of its name. -/
theorem gen_node (hpath : h.Node (components path) .reg) :
    ∃ v, h.gen path = some v ∧ h.Content (components path) v := by
  have hkind := (kind_iff h path .reg).mpr (Or.inl hpath)
  rw [Host.gen, if_neg (not_not_intro hkind), sysSplit_eq, List.take_of_length_le hpath.length_le]
  clear hkind
  have hclass : ¬ "class".toList.take 63 = "devices".toList := by decide
  have hname : ∀ {i : Text}, h.known i = true → i.take 63 = i := fun {i} hi => by
    obtain ⟨f, -, hfi, -⟩ := lastNamed_spec hi
    exact List.take_of_length_le (by have := f.name_lt; rw [← hfi]; omega)
  generalize components path = cs at hpath
  cases hpath with
  | @attr i leaf hi hleaf =>
    obtain ⟨f, hf, hfi, hlast⟩ := lastNamed_spec hi
    obtain ⟨v, hv⟩ := value_defined f (List.mem_append_left _ hleaf)
    refine ⟨v, (if_neg hclass).trans ?_, hfi ▸ .attr hf hleaf hv⟩
    show (h.lastNamed (i.take 63)).bind (fun f => f.value (leaf.take 63)) = some v
    rw [hname hi, hlast, List.take_of_length_le (Nat.le_trans (netFile_length _ hleaf) (by decide)),
      Option.bind_some, hv]
  | @stat i leaf hi hleaf =>
    obtain ⟨f, hf, hfi, hlast⟩ := lastNamed_spec hi
    obtain ⟨v, hv⟩ := value_defined f (List.mem_append_right _ hleaf)
    refine ⟨v, (if_neg hclass).trans ?_, hfi ▸ .stat hf hleaf hv⟩
    show (h.lastNamed (i.take 63)).bind (fun f => f.value (leaf.take 63)) = some v
    rw [hname hi, hlast, List.take_of_length_le (Nat.le_trans (netStat_length _ hleaf) (by decide)),
      Option.bind_some, hv]
  | @cpuFile leaf hleaf => exact ⟨_, if_pos rfl, .cpu hleaf⟩

/-! ## Opening -/

theorem components_proc (hproc : (procSub path).isSome = true) :
    (components path).head? = some "proc".toList := by
  rw [procSub] at hproc
  split at hproc
  · rename_i hp
    obtain ⟨h5, hrest⟩ := hp
    have hpath : path = "/proc".toList ++ path.drop 5 := by
      rw [← h5, List.take_append_drop]
    have hword : word ("proc".toList ++ path.drop 5) = "proc".toList := by
      cases hd : path.drop 5 with
      | nil => rfl
      | cons c r =>
        rw [hd] at hrest
        have hc : c = '/' := by simpa using hrest
        subst hc
        rfl
    have hstrip : strip path = "proc".toList ++ path.drop 5 := by
      conv_lhs => rw [hpath]
      rfl
    rw [components, hstrip, componentsFrom, if_neg (by simp), List.head?_cons, hword]
  · cases hproc

theorem Host.Node.head (hn : h.Node cs t) : cs.head? = some "sys".toList := by
  cases hn <;> rfl

/-- A directory is opened exactly if it is spelled from `/sys/` on. -/
theorem open_dir_iff (proc : Text → Opened) (hdir : h.Node (components path) .dir) :
    (∀ flags : OpenFlags, flags.write = false → h.open proc path flags = .directory) ↔
      path.take 5 = "/sys/".toList := by
  have hkind := (kind_iff h path .dir).mpr (Or.inl hdir)
  constructor
  · intro hopen
    by_contra hspell
    have hproc : ¬ (procSub path).isSome = true := fun hp => by
      have hhead := components_proc hp
      rw [hdir.head] at hhead
      exact absurd hhead (by decide)
    have hnow := hopen {} rfl
    rw [Host.open, if_neg hspell, if_neg hproc] at hnow
    cases hnow
  · intro hspell flags hwrite
    rw [Host.open, if_pos hspell, hwrite, if_neg (by decide), hkind]

/-- **The virtual /sys.** Kind, listing, content and open agree on a path exactly if it is plain. -/
theorem sysfs_coherent_iff (h : Host) (proc : Text → Opened) (path : Text) :
    h.Coherent proc path ↔ h.Plain path := by
  have hcs := components_spec path
  constructor
  · intro hc
    have hdir : h.Node (components path) .dir → h.kind path = some .dir := fun hn =>
      (kind_iff h path .dir).mpr (Or.inl hn)
    refine ⟨fun hdeep => ?_, fun hdot => ?_, fun hn => (open_dir_iff proc hn).mp (hc.opened (hdir hn))⟩
    · have hreach := (hc.kind .reg).mp ((kind_iff h path .reg).mpr (Or.inr ⟨hdeep, rfl⟩))
      rcases (reach_iff hcs).mp hreach with hn | ⟨-, ht⟩
      · exact absurd hn.length_le (Nat.not_le.mpr hdeep.1)
      · cases ht
    · have hkind := (hc.kind .dir).mpr ((reach_iff hcs).mpr (Or.inr ⟨hdot, rfl⟩))
      exact ((kind_iff h path .dir).mp hkind).resolve_right fun hd => by cases hd.2
  · intro hp
    have hkind : ∀ t, h.kind path = some t ↔ h.Node (components path) t := fun t =>
      (kind_iff h path t).trans (or_iff_left fun hd => hp.deep hd.1)
    refine ⟨fun t => ?_, fun hreg => gen_node ((hkind _).mp hreg), fun hd => ?_, fun hd => ?_⟩
    · rw [hkind, reach_iff hcs]
      refine ⟨Or.inl, fun hr => hr.elim id fun hd => ?_⟩
      rw [hd.2]
      exact hp.dotted hd.1
    · have hn := (hkind _).mp hd
      exact (open_dir_iff proc hn).mpr (hp.spelled hn)
    · rw [Host.list, if_neg (not_not_intro hd)]
      exact Option.some_ne_none _

end

/-! ## Paths on which they part -/

/-- One interface, `en0`. -/
def en0 : Host where
  ifs := [⟨"en0".toList, by decide, 7, 0, 0, 0, 0, 0, 0, 0, 1500, true, [], 0⟩]
  hwNcpu := 8

/-- `/sys` is a directory that cannot be opened, a path behind a statistics file is a file, and the dot
that is listed in `/sys` is nothing. -/
theorem sysfs_incoherent :
    ¬ en0.Coherent (fun _ => .declined) "/sys".toList ∧
      (en0.kind "/sys/class/net/en0/statistics/rx_bytes/x".toList = some .reg ∧
        en0.gen "/sys/class/net/en0/statistics/rx_bytes/x".toList = some "7\n".toList) ∧
      (en0.list "/sys".toList).any (fun es => es.contains (".".toList, .dir)) = true ∧
      en0.kind "/sys/.".toList = none := by
  refine ⟨fun hc => ?_, by decide +kernel⟩
  have hopened := hc.opened (by decide +kernel) {} rfl
  revert hopened
  decide +kernel

end ApeShim.XnuSys
