import ApeShim.Procfs.Virtual

/-!
The five case analyses of `Virtual.lean` side by side: what a directory lists, what
`vstat` finds under each name in it, and what can be opened. They agree name by name
exactly where `Steady` says so, and a directory that `vstat` reports can be listed
except where `Unlisted` says so.
-/

namespace ApeShim.Procfs

/-! ## The statement -/

/-- Under the name `x` of a listed directory, stat, listing and content agree. -/
structure Coherent (h : Host) (slots : Slots) (t : Int) (d : Text) (es : List (Text × FType))
    (x : Text) : Prop where
  /-- `lstat` succeeds for the names listed, with the type listed -/
  listed_iff : ∀ ty, (x, ty) ∈ es ↔ ∃ st, h.vstat (join d x) true = .ok st ∧ st.type = ty
  /-- what is listed as a regular file opens for content -/
  opens : (x, .reg) ∈ es → ∃ text, (h.procfsOpen slots t (join d x) {}).2 = .content text

/-- What stats as a directory can be listed. -/
def DirListed (h : Host) (path : Text) (nofollow : Bool) : Prop :=
  (∃ st, h.vstat path nofollow = .ok st ∧ st.type = .dir) → ∃ es, h.virtualDir path = .entries es

/-! ## The conditions -/

/-- The type of a file of a thread, by its name. -/
def fileKind (x : Text) : Option FType :=
  if x ∈ linkNames then some .lnk else if x ∈ pidVolatile ++ pidStable then some .reg else none

/-- A content file whose slot says that the process is absent. -/
def Host.withheld (h : Host) (slots : Slots) (t : Int) (pid : UInt32) (name : Text) : Prop :=
  h.slotted pid name = true ∧ stuck slots t pid = true

/-- The names on which a listed directory is coherent, by what the directory is. -/
def Host.Steady (h : Host) (slots : Slots) (t : Int) (n : Node) (x : Text) : Prop :=
  match n.kind with
  | .root =>
      -- a live process under another spelling of its number
      x.head?.any Char.isDigit = true → h.alive (strtoul (x.take 63)) = true →
        x = decimal (strtoul (x.take 63)).toNat
  | .pidDir => ¬ h.withheld slots t n.pid x
  | .pidSub =>
      if n.name = "task".toList then
        -- any name is taken for a thread
        if n.rest = [] then x ∈ h.tids n.pid
        -- and the name behind a thread is cut to what the field has left
        else n.rest.length < 199 ∧ fileKind (x.take (198 - n.rest.length)) = fileKind x ∧
          ¬ h.withheld slots t n.pid (x.take (198 - n.rest.length))
      -- and any name for a descriptor
      else if n.name = "fd".toList then x ∈ h.fdNames n.pid
      else True
  | _ => True

/-- The directories that cannot be listed, of what follows "/proc": those under
/proc/sys, and links to a directory other than to a live process. -/
def Host.UnlistedSub (h : Host) (sub : Text) (nofollow : Bool) : Prop :=
  ((h.pcParse sub).kind = .sys ∧ ((h.pcParse sub).rest = [] ∨ (h.pcParse sub).rest ∈ sysDirs)) ∨
  (nofollow = false ∧ h.linkMode sub ≠ 0 ∧
    (∃ target st, h.linkOfNode (h.pcParse sub) sub 511 = some target ∧
      h.statTarget target = .ok st ∧ st.type = .dir) ∧
    ((h.pcParse sub).kind = .pidDir → h.alive (h.pcParse sub).pid = false))

def Host.Unlisted (h : Host) (path : Text) (nofollow : Bool) : Prop :=
  ∃ sub, procSub path = some sub ∧ h.UnlistedSub sub nofollow

/-! ## The kinds of names -/

theorem fileKind_take (x : Text) : fileKind (x.take 63) = fileKind x := by
  have hlink : ∀ y ∈ linkNames, y.length < 63 := by decide
  have hfile : ∀ y ∈ pidVolatile ++ pidStable, y.length < 63 := by decide
  rw [fileKind, fileKind, if_congr (take_mem_iff hlink) rfl (if_congr (take_mem_iff hfile) rfl rfl)]

/-- What a name in the directory of a process is. -/
def subKind (x : Text) : Option FType :=
  if x ∈ ["task", "net", "fd"].map String.toList then some .dir else fileKind x

theorem ne_dots {x : Text} (hx : EntryName x) {ty : FType} : (x, ty) ∉ dots := by
  intro hmem
  have hdots : ∀ e ∈ dots, e.1 = ".".toList ∨ e.1 = "..".toList := by decide
  rcases hdots _ hmem with h | h
  · exact hx.ne_dot h
  · exact hx.ne_dotdot h

theorem mem_pidEntries {x : Text} (hx : EntryName x) (thread : Bool) (ty : FType) :
    (x, ty) ∈ pidEntries thread ↔ (if thread then fileKind x else subKind x) = some ty := by
  constructor
  · intro hmem
    have htable : ∀ thread, ∀ e ∈ pidEntries thread, e ∈ dots ∨
        (if thread then fileKind e.1 else subKind e.1) = some e.2 := by decide
    exact (htable thread _ hmem).resolve_left (ne_dots hx)
  · intro hk
    have hlink : ∀ thread, ∀ y ∈ linkNames, (y, FType.lnk) ∈ pidEntries thread := by decide
    have hfile : ∀ thread, ∀ y ∈ pidVolatile ++ pidStable, (y, FType.reg) ∈ pidEntries thread := by
      decide
    have hdir : ∀ y ∈ ["task", "net", "fd"].map String.toList, (y, FType.dir) ∈ pidEntries false := by
      decide
    have hkind : fileKind x = some ty → (x, ty) ∈ pidEntries thread := by
      intro hk
      unfold fileKind at hk
      split at hk
      · obtain rfl := Option.some.inj hk
        exact hlink thread x ‹_›
      · split at hk
        · obtain rfl := Option.some.inj hk
          exact hfile thread x ‹_›
        · cases hk
    cases thread with
    | true => exact hkind hk
    | false =>
      rw [if_neg (by decide), subKind] at hk
      split at hk
      · obtain rfl := Option.some.inj hk
        exact hdir x ‹_›
      · exact hkind hk

theorem mem_netEntries {x : Text} (hx : EntryName x) (ty : FType) :
    (x, ty) ∈ netEntries ↔ (if x ∈ netFiles then some FType.reg else none) = some ty := by
  constructor
  · intro hmem
    have htable : ∀ e ∈ netEntries, e ∈ dots ∨
        (if e.1 ∈ netFiles then some FType.reg else none) = some e.2 := by decide
    exact (htable _ hmem).resolve_left (ne_dots hx)
  · intro hk
    have hfile : ∀ y ∈ netFiles, (y, FType.reg) ∈ netEntries := by decide
    split at hk
    · obtain rfl := Option.some.inj hk
      exact hfile x ‹_›
    · cases hk

theorem netFiles_of_listed {x : Text} (hx : EntryName x) {ty : FType} (hl : (x, ty) ∈ netEntries) :
    x ∈ netFiles := by
  rw [mem_netEntries hx] at hl
  by_contra hn
  rw [if_neg hn] at hl
  cases hl

/-! ## The type `lstat` finds -/

def VStat.type? : VStat → Option FType
  | .ok st => some st.type
  | _ => none

/-- The type `lstat` finds, of what follows "/proc". -/
def Host.typeAt (h : Host) (sub : Text) : Option FType :=
  if h.linkMode sub ≠ 0 then some .lnk else (h.statNode (h.pcParse sub)).type?

section Types

variable {h : Host} {sub path x : Text}

theorem vstat_type (hp : procSub path = some sub) (ty : FType) :
    (∃ st, h.vstat path true = .ok st ∧ st.type = ty) ↔ h.typeAt sub = some ty := by
  simp only [Host.vstat, hp, Host.typeAt, if_true]
  by_cases hl : h.linkMode sub ≠ 0
  · rw [if_pos hl, if_pos hl]
    simp
  · rw [if_neg hl, if_neg hl]
    cases h.statNode (h.pcParse sub) <;> simp [VStat.type?]

/-- A path that is neither a process nor below one is no link. -/
theorem typeAt_outside (hd : (h.pcParse sub).kind ≠ .pidDir) (hs : (h.pcParse sub).kind ≠ .pidSub) :
    h.typeAt sub = (h.statNode (h.pcParse sub)).type? := by
  have hmode : h.linkMode sub = 0 := by
    rw [Host.linkMode, if_neg (fun hc => hd hc.1), if_pos hs]
  rw [Host.typeAt, if_neg (by simp [hmode])]

/-- A path below a process is a link by its name alone. -/
theorem typeAt_below (hk : (h.pcParse sub).kind = .pidSub) :
    h.typeAt sub = if (pcLinkName (h.pcParse sub)).isSome = true ∨ ((h.pcParse sub).name = "fd".toList ∧
        (h.pcParse sub).rest ≠ [] ∧ '/' ∉ (h.pcParse sub).rest) then some .lnk
      else (h.statNode (h.pcParse sub)).type? := by
  have hmode : h.linkMode sub = if (pcLinkName (h.pcParse sub)).isSome = true then 0o777
      else if (h.pcParse sub).name = "fd".toList ∧ (h.pcParse sub).rest ≠ [] ∧
        '/' ∉ (h.pcParse sub).rest then 0o700 else 0 := by
    have hdir : ¬ ((h.pcParse sub).kind = .pidDir ∧ spelledSelf sub = true) := by simp [hk]
    rw [Host.linkMode, if_neg hdir, if_neg (by simp [hk])]
  rw [Host.typeAt, hmode]
  split
  · simp_all
  · split <;> simp_all

theorem statNode_below {n : Node} (hk : n.kind = .pidSub) (ha : h.alive n.pid = true) :
    (h.statNode n).type? = if h.isDirNode n = true then some .dir
      else if h.contentExists n = true then some .reg else none := by
  simp only [Host.statNode, hk, ha, Bool.true_eq_false, if_false]
  split
  · rfl
  · split <;> rfl

/-! ## Below a process -/

/-- A name right in the directory of a process. -/
theorem below_named {n : Node} (hk : n.kind = .pidSub) (hr : n.rest = []) (ha : h.alive n.pid = true) :
    (pcLinkName n).isSome = decide (n.name ∈ linkNames) ∧
    h.isDirNode n = decide (n.name ∈ ["task", "net", "fd"].map String.toList) ∧
    h.contentExists n = decide (n.name ∈ pidVolatile ++ pidStable) := by
  refine ⟨?_, ?_, ?_⟩
  · have htask : "task".toList ∉ linkNames := by decide
    by_cases ht : n.name = "task".toList
    · rw [pcLinkName, if_neg (by simp [hk]), if_pos ht, hr, ht, decide_eq_false htask]
      rfl
    · rw [pcLinkName, if_neg (by simp [hk]), if_neg ht, if_neg (by simp [hr])]
      split
      · rw [decide_eq_true ‹_›]
        rfl
      · rw [decide_eq_false ‹_›]
        rfl
  · simp only [Host.isDirNode, hk, hr, List.map, List.mem_cons, List.not_mem_nil, or_false,
      decide_true, Bool.true_or]
    by_cases hf : n.name = "fd".toList ∨ n.name = "net".toList
    · rw [if_pos hf]
      rcases hf with hf | hf <;> simp [hf]
    · rw [if_neg hf]
      by_cases ht : n.name = "task".toList
      · simp [ht]
      · have hnone : ¬ (n.name = "task".toList ∨ n.name = "net".toList ∨ n.name = "fd".toList) := by
          rintro (hc | hc | hc)
          · exact ht hc
          · exact hf (Or.inr hc)
          · exact hf (Or.inl hc)
        rw [if_neg ht, decide_eq_false hnone]
  · simp only [Host.contentExists, hk, ha, hr, Bool.true_eq_false, if_false, if_true]

theorem lastOf_none {rest : Text} (hr : '/' ∉ rest) : lastOf rest = none := by
  have hdrop : rest.dropWhile (· ≠ '/') = [] := by
    rw [List.dropWhile_eq_nil_iff]
    intro c hc
    have : c ≠ '/' := by
      rintro rfl
      exact hr hc
    simpa using this
  rw [lastOf, hdrop]

theorem lastOf_thread {tid y : Text} (ht : '/' ∉ tid) (hy : '/' ∉ y) :
    lastOf (tid ++ '/' :: y) = some y := by
  have hall : ∀ c ∈ tid, (decide (c ≠ '/')) = true := by
    intro c hc
    have : c ≠ '/' := by
      rintro rfl
      exact ht hc
    simpa using this
  rw [lastOf, List.dropWhile_append_of_pos hall]
  simp [hy]

/-- A name in the directory of a thread. -/
theorem below_thread {n : Node} {tid y : Text} (hk : n.kind = .pidSub) (hn : n.name = "task".toList)
    (hr : n.rest = tid ++ '/' :: y) (ht : '/' ∉ tid) (hy : '/' ∉ y) (ha : h.alive n.pid = true) :
    (pcLinkName n).isSome = decide (y ∈ linkNames) ∧ h.isDirNode n = false ∧
    h.contentExists n = decide (y ∈ pidVolatile ++ pidStable) := by
  have hlast := lastOf_thread ht hy
  have hslash : '/' ∈ n.rest := by simp [hr]
  have hne : n.rest ≠ [] := by simp [hr]
  refine ⟨?_, ?_, ?_⟩
  · rw [pcLinkName, if_neg (by simp [hk]), if_pos hn, hr, hlast]
    by_cases hl : y ∈ linkNames <;> simp [Option.filter, hl]
  · have hother : ¬ (n.name = "fd".toList ∨ n.name = "net".toList) := by
      rw [hn]
      decide
    simp only [Host.isDirNode, hk]
    rw [if_neg hother, if_pos hn]
    simp [hne, hslash]
  · simp only [Host.contentExists, hk, ha, Bool.true_eq_false, if_false]
    rw [if_neg hne, if_pos hn, hr, hlast]
    rfl

/-! ## The entries of each directory -/

theorem typeAt_pidDir (hx : EntryName x) (hk : (h.pcParse sub).kind = .pidDir)
    (ha : h.alive (h.pcParse sub).pid = true) : h.typeAt (join sub x) = subKind x := by
  obtain ⟨hr, hm⟩ := (pcParse_entry hx h sub).2.2.1 hk
  have hkind : (h.pcParse (join sub x)).kind = .pidSub := by rw [hm]
  have hrest : (h.pcParse (join sub x)).rest = [] := by rw [hm]; exact hr
  have halive : h.alive (h.pcParse (join sub x)).pid = true := by rw [hm]; exact ha
  have hname : (h.pcParse (join sub x)).name = x.take 63 := by rw [hm]
  obtain ⟨hlink, hdir, hfile⟩ := below_named hkind hrest halive
  have hdirs : ∀ y ∈ ["task", "net", "fd"].map String.toList, y.length < 63 ∧ y ∉ linkNames := by decide
  rw [typeAt_below hkind, statNode_below hkind halive, hlink, hdir, hfile, hname, hrest, subKind,
    ← fileKind_take, fileKind]
  simp only [ne_eq, not_true_eq_false, false_and, and_false, or_false, decide_eq_true_eq]
  rw [if_congr (take_mem_iff fun y hy => (hdirs y hy).1) rfl rfl]
  by_cases hx' : x ∈ ["task", "net", "fd"].map String.toList
  · have htake : x.take 63 = x := (take_eq_iff (hdirs x hx').1).mpr rfl
    rw [if_pos hx', if_pos hx', htake, if_neg (hdirs x hx').2]
  · rw [if_neg hx', if_neg hx']

theorem typeAt_netDir (hx : EntryName x) (hk : (h.pcParse sub).kind = .netDir) :
    h.typeAt (join sub x) = if x ∈ netFiles then some .reg else none := by
  have hm := (pcParse_entry hx h sub).2.1 hk
  have hshort : ∀ y ∈ netFiles, y.length < 63 := by decide
  rw [typeAt_outside (by simp [hm]) (by simp [hm]), hm]
  simp only [Host.statNode, Host.contentExists, decide_eq_true_eq]
  rw [if_congr (take_mem_iff hshort) rfl rfl]
  split <;> rfl

/-- The name cannot hold a separator, nor what is left of it. -/
theorem slash_notMem_take (hx : EntryName x) (k : Nat) : '/' ∉ x.take k :=
  fun hc => hx.noSlash (List.mem_of_mem_take hc)

theorem take_ne_nil (hx : EntryName x) {k : Nat} (hk : k ≠ 0) : x.take k ≠ [] := by
  simp [hk, hx.ne_nil]

/-- Any name is a thread of a live process. -/
theorem typeAt_tid (hk : (h.pcParse sub).kind = .pidSub) (hn : (h.pcParse sub).name = "task".toList)
    (hs : '/' ∉ (h.pcParse sub).rest) (ha : h.alive (h.pcParse sub).pid = true) :
    h.typeAt sub = some .dir := by
  generalize hm : h.pcParse sub = n at hk hn hs ha
  have hlast := lastOf_none hs
  have hlink : pcLinkName n = none := by
    rw [pcLinkName, if_neg (by simp [hk]), if_pos hn, hlast]
    rfl
  have hfd : n.name ≠ "fd".toList := by rw [hn]; decide
  have hnet : n.name ≠ "net".toList := by rw [hn]; decide
  have hdir : h.isDirNode n = true := by
    simp only [Host.isDirNode, hk]
    rw [if_neg (by simp only [hfd, hnet, or_false, not_false_eq_true]), if_pos hn]
    simp [hs]
  rw [typeAt_below (by rw [hm]; exact hk), hm, statNode_below hk ha, hlink, hdir]
  simp only [Option.isSome_none, Bool.false_eq_true, hfd, false_and, or_false, if_false, if_true]

/-- What the field has left for the name behind a thread. -/
theorem join_take {tid : Text} (x : Text) (hlen : tid.length < 199) :
    (join tid x).take 199 = tid ++ '/' :: x.take (198 - tid.length) := by
  obtain ⟨k, hk⟩ : ∃ k, 199 - tid.length = k + 1 := ⟨198 - tid.length, by omega⟩
  have hk' : 198 - tid.length = k := by omega
  rw [join, List.take_append, List.take_of_length_le (by omega), hk, hk', List.take_succ_cons]

section Sub

variable (hx : EntryName x) (hk : (h.pcParse sub).kind = .pidSub)

include hx hk

theorem typeAt_task (hn : (h.pcParse sub).name = "task".toList) (hr : (h.pcParse sub).rest = [])
    (ha : h.alive (h.pcParse sub).pid = true) : h.typeAt (join sub x) = some .dir := by
  have hm := (pcParse_entry hx h sub).2.2.2 hk
  rw [if_pos hr] at hm
  apply typeAt_tid <;> rw [hm]
  · exact hk
  · exact hn
  · exact slash_notMem_take hx 199
  · exact ha

theorem typeAt_thread (hn : (h.pcParse sub).name = "task".toList) (hr : (h.pcParse sub).rest ≠ [])
    (hs : '/' ∉ (h.pcParse sub).rest) (ha : h.alive (h.pcParse sub).pid = true) :
    h.typeAt (join sub x) = if (h.pcParse sub).rest.length < 199 then
      fileKind (x.take (198 - (h.pcParse sub).rest.length)) else some .dir := by
  have hm := (pcParse_entry hx h sub).2.2.2 hk
  rw [if_neg hr] at hm
  generalize hp : h.pcParse sub = n at hm hk hn hr hs ha
  by_cases hlen : n.rest.length < 199
  · rw [join_take x hlen] at hm
    generalize hm' : h.pcParse (join sub x) = m at hm
    have hkind : m.kind = .pidSub := by rw [hm]; exact hk
    have hname : m.name = "task".toList := by rw [hm]; exact hn
    have halive : h.alive m.pid = true := by rw [hm]; exact ha
    have hfd : m.name ≠ "fd".toList := by rw [hname]; decide
    obtain ⟨hlink, hdir, hfile⟩ :=
      below_thread hkind hname (by rw [hm]) hs (slash_notMem_take hx (198 - n.rest.length)) halive
    rw [typeAt_below (by rw [hm']; exact hkind), hm', statNode_below hkind halive, hlink, hdir, hfile,
      if_pos hlen, fileKind]
    simp only [hfd, false_and, or_false, decide_eq_true_eq, Bool.false_eq_true, if_false]
  · have hcut : (join n.rest x).take 199 = n.rest.take 199 := by
      rw [join, List.take_append_of_le_length (by omega)]
    rw [hcut] at hm
    rw [if_neg hlen]
    apply typeAt_tid <;> rw [hm]
    · exact hk
    · exact hn
    · exact fun hc => hs (List.mem_of_mem_take hc)
    · exact ha

theorem typeAt_fd (hn : (h.pcParse sub).name = "fd".toList) (hr : (h.pcParse sub).rest = []) :
    h.typeAt (join sub x) = some .lnk := by
  have hm := (pcParse_entry hx h sub).2.2.2 hk
  rw [if_pos hr] at hm
  rw [typeAt_below (by rw [hm]; exact hk), hm]
  exact if_pos (Or.inr ⟨hn, take_ne_nil hx (by decide), slash_notMem_take hx 199⟩)

theorem typeAt_net (hn : (h.pcParse sub).name = "net".toList) (hr : (h.pcParse sub).rest = [])
    (ha : h.alive (h.pcParse sub).pid = true) :
    h.typeAt (join sub x) = if x ∈ netFiles then some .reg else none := by
  have hm := (pcParse_entry hx h sub).2.2.2 hk
  rw [if_pos hr] at hm
  generalize hm' : h.pcParse (join sub x) = m at hm
  have hkind : m.kind = .pidSub := by rw [hm]; exact hk
  have hname : m.name = "net".toList := by rw [hm]; exact hn
  have hrest : m.rest = x.take 199 := by rw [hm]
  have halive : h.alive m.pid = true := by rw [hm]; exact ha
  have hne : m.rest ≠ [] := by rw [hrest]; exact take_ne_nil hx (by decide)
  have hslash : '/' ∉ m.rest := by rw [hrest]; exact slash_notMem_take hx 199
  have hshort : ∀ y ∈ netFiles, y.length < 199 := by decide
  have hfd : m.name ≠ "fd".toList := by rw [hname]; decide
  have htask : m.name ≠ "task".toList := by rw [hname]; decide
  have hlink : pcLinkName m = none := by
    rw [pcLinkName, if_neg (by simp [hkind]), if_neg htask, if_pos hne]
  have hdir : h.isDirNode m = false := by
    simp only [Host.isDirNode, hkind]
    rw [if_pos (Or.inr hname), decide_eq_false hne]
  have hfile : h.contentExists m = decide (x ∈ netFiles) := by
    simp only [Host.contentExists, hkind, halive, Bool.true_eq_false, if_false]
    rw [if_neg hne, if_neg htask, if_pos ⟨hname, hslash⟩, hrest, decide_eq_decide]
    exact take_mem_iff hshort
  rw [typeAt_below (by rw [hm']; exact hkind), hm', statNode_below hkind halive, hlink, hdir, hfile]
  simp only [Option.isSome_none, hfd, false_and, or_false, decide_eq_true_eq, Bool.false_eq_true, if_false]

end Sub

/-! ## The root -/

theorem strip_of_root (hk : (h.pcParse sub).kind = .root) : strip sub = [] := by
  by_contra hs
  rw [Host.pcParse, if_neg hs] at hk
  rcases parseRest_cases h (comp 64 (strip sub)) with ⟨w, pid, hp⟩ | hp | hp | hp
  · rw [hp, parsePid_kind] at hk
    split at hk <;> cases hk
  · rw [hp] at hk
    split at hk <;> cases hk
  · rw [hp] at hk
    cases hk
  · rw [hp] at hk
    dsimp only at hk
    split at hk <;> cases hk

/-- What a name in the root is. -/
def Host.rootKind (h : Host) (x : Text) : Option FType :=
  if x = "self".toList then some .lnk
  else if x.head?.any Char.isDigit = true then
    if h.alive (strtoul (x.take 63)) = true then some .dir else none
  else if x ∈ ["net", "sys"].map String.toList then some .dir
  else if x ∈ topFiles then some .reg
  else none

theorem spelledSelf_iff (hx : EntryName x) (hs : strip sub = []) :
    spelledSelf (join sub x) = true ↔ x = "self".toList := by
  have hstrip : strip (join sub x) = x := by rw [strip_join hx, if_pos hs]
  rw [spelledSelf, hstrip, Bool.and_eq_true, Bool.or_eq_true, decide_eq_true_eq, decide_eq_true_eq,
    decide_eq_true_eq]
  constructor
  · rintro ⟨htake, hdrop | hdrop⟩
    · rw [← List.take_append_drop 4 x, htake, hdrop]
      rfl
    · exact absurd (List.mem_of_mem_drop (List.mem_of_mem_head? hdrop)) hx.noSlash
  · rintro rfl
    decide

/-- A name of the root that is taken for a process. -/
theorem typeAt_process {pid : UInt32} {w : Bool} (hx : EntryName x) (hs : strip sub = [])
    (hne : x ≠ "self".toList) (hm : h.pcParse (join sub x) = parsePid w pid []) :
    h.typeAt (join sub x) = if h.alive pid = true then some .dir else none := by
  have hlinks : h.linkMode (join sub x) = 0 := by
    rw [Host.linkMode, if_neg (fun hc => hne ((spelledSelf_iff hx hs).mp hc.2)), hm]
    rfl
  rw [Host.typeAt, if_neg (by simp [hlinks]), hm, parsePid, if_pos rfl]
  simp only [Host.statNode]
  split <;> rfl

theorem typeAt_root (hx : EntryName x) (hk : (h.pcParse sub).kind = .root) :
    h.typeAt (join sub x) = h.rootKind x := by
  have hs := strip_of_root hk
  have hm := (pcParse_entry hx h sub).1 hk
  have hself : (x.take 63 = "self".toList) ↔ x = "self".toList := take_eq_iff (by decide)
  have hnet : (x.take 63 = "net".toList) ↔ x = "net".toList := take_eq_iff (by decide)
  have hsys : (x.take 63 = "sys".toList) ↔ x = "sys".toList := take_eq_iff (by decide)
  have htop : ∀ y ∈ topFiles, y.length < 63 := by decide
  rw [Host.rootKind]
  by_cases h1 : x = "self".toList
  · have hmode : h.linkMode (join sub x) = 0o777 := by
      have hafter : after (strip (join sub x)) = [] := by
        rw [strip_join hx, if_pos hs, after_name hx]
      have hdir : (h.pcParse (join sub x)).kind = .pidDir := by
        rw [hm, Host.parseRest, if_pos (hself.mpr h1)]
        rfl
      rw [Host.linkMode, if_pos ⟨hdir, (spelledSelf_iff hx hs).mpr h1⟩, if_pos hafter]
    rw [if_pos h1, Host.typeAt, if_pos (by simp [hmode])]
  rw [if_neg h1]
  rw [Host.parseRest, if_neg (fun hc => h1 (hself.mp hc)), head_take] at hm
  by_cases h2 : x.head?.any Char.isDigit = true
  · rw [if_pos h2] at hm ⊢
    by_cases h3 : strtoul (x.take 63) = h.getpid
    · rw [if_pos h3] at hm
      rw [typeAt_process hx hs h1 hm, h3]
      rfl
    · rw [if_neg h3] at hm
      exact typeAt_process hx hs h1 hm
  rw [if_neg h2] at hm ⊢
  by_cases h3 : x = "net".toList
  · rw [if_pos (hnet.mpr h3), if_pos rfl] at hm
    rw [typeAt_outside (by simp [hm]) (by simp [hm]), hm, h3]
    rfl
  rw [if_neg (fun hc => h3 (hnet.mp hc))] at hm
  by_cases h4 : x = "sys".toList
  · rw [if_pos (hsys.mpr h4)] at hm
    rw [typeAt_outside (by simp [hm]) (by simp [hm]), hm, h4]
    rfl
  rw [if_neg (fun hc => h4 (hsys.mp hc)), if_pos rfl] at hm
  have hnone : x ∉ ["net", "sys"].map String.toList := by
    rw [List.map, List.map, List.map, List.mem_cons, List.mem_singleton, not_or]
    exact ⟨h3, h4⟩
  rw [if_neg hnone, typeAt_outside (by simp [hm]) (by simp [hm]), hm]
  simp only [Host.statNode, Host.contentExists, decide_eq_true_eq]
  rw [if_congr (take_mem_iff htop) rfl rfl]
  split <;> rfl

/-- The entries of the root that no process has made. -/
def fixedEntries : List (Text × FType) :=
  [entry .lnk "self".toList] ++ topFiles.map (entry .reg) ++
    ["net", "sys"].map (entry .dir ∘ String.toList)

theorem mem_fixedEntries (hd : ¬ x.head?.any Char.isDigit = true) (ty : FType) :
    (x, ty) ∈ fixedEntries ↔ h.rootKind x = some ty := by
  have hkind : h.rootKind x = if x = "self".toList then some .lnk
      else if x ∈ ["net", "sys"].map String.toList then some .dir
      else if x ∈ topFiles then some .reg else none := by
    rw [Host.rootKind, if_neg hd]
  rw [hkind]
  constructor
  · intro hmem
    have htable : ∀ e ∈ fixedEntries, (if e.1 = "self".toList then some FType.lnk
        else if e.1 ∈ ["net", "sys"].map String.toList then some .dir
        else if e.1 ∈ topFiles then some .reg else none) = some e.2 := by decide
    exact htable _ hmem
  · intro hk
    have hdirs : ∀ y ∈ ["net", "sys"].map String.toList, (y, FType.dir) ∈ fixedEntries := by decide
    have hfiles : ∀ y ∈ topFiles, (y, FType.reg) ∈ fixedEntries := by decide
    split at hk
    · rename_i hself
      obtain rfl := Option.some.inj hk
      rw [hself]
      decide
    · split at hk
      · obtain rfl := Option.some.inj hk
        exact hdirs x ‹_›
      · split at hk
        · obtain rfl := Option.some.inj hk
          exact hfiles x ‹_›
        · cases hk

theorem mem_rootEntries (hx : EntryName x) (ty : FType) :
    (x, ty) ∈ h.rootEntries ↔
      (ty = .dir ∧ ∃ p, h.alive p = true ∧ x = decimal p.toNat) ∨ (x, ty) ∈ fixedEntries := by
  have hsplit : h.rootEntries =
      dots ++ h.procs.map (fun p => entry .dir (decimal p.toNat)) ++ fixedEntries := by
    simp only [Host.rootEntries, fixedEntries, List.append_assoc]
  have hproc : (x, ty) ∈ h.procs.map (fun p => entry .dir (decimal p.toNat)) ↔
      ty = .dir ∧ ∃ p, h.alive p = true ∧ x = decimal p.toNat := by
    have hcut : ∀ p : UInt32, entry .dir (decimal p.toNat) = (decimal p.toNat, FType.dir) := by
      intro p
      have := decimal_length p
      rw [entry, List.take_of_length_le (by omega)]
    simp only [List.mem_map, hcut, Prod.mk.injEq, Host.alive, List.contains_iff_mem]
    constructor
    · rintro ⟨p, hp, rfl, rfl⟩
      exact ⟨rfl, p, hp, rfl⟩
    · rintro ⟨rfl, p, hp, rfl⟩
      exact ⟨p, hp, rfl, rfl⟩
  rw [hsplit, List.mem_append, List.mem_append, hproc, or_iff_right (ne_dots hx)]

/-- In the root, only another spelling of a live process is not listed. -/
theorem root_listed_iff (hx : EntryName x) :
    (∀ ty, (x, ty) ∈ h.rootEntries ↔ h.rootKind x = some ty) ↔
      (x.head?.any Char.isDigit = true → h.alive (strtoul (x.take 63)) = true →
        x = decimal (strtoul (x.take 63)).toNat) := by
  by_cases hd : x.head?.any Char.isDigit = true
  · have hnone : ∀ ty, (x, ty) ∉ fixedEntries := by
      intro ty hmem
      have htable : ∀ e ∈ fixedEntries, e.1.head?.any Char.isDigit = false := by decide
      rw [htable _ hmem] at hd
      cases hd
    have hself : x ≠ "self".toList := by
      rintro rfl
      revert hd
      decide
    simp only [mem_rootEntries hx, hnone, or_false, Host.rootKind, if_neg hself, if_pos hd]
    constructor
    · intro hlist _ ha
      obtain ⟨-, p, -, hp⟩ := (hlist .dir).mpr (if_pos ha)
      have hq : strtoul (x.take 63) = p := by rw [hp, strtoul_decimal]
      rw [hq]
      exact hp
    · intro hspell ty
      constructor
      · rintro ⟨rfl, p, hp, hxp⟩
        have hq : strtoul (x.take 63) = p := by rw [hxp, strtoul_decimal]
        rw [hq, if_pos hp]
      · intro hk
        split at hk
        · rename_i ha
          exact ⟨(Option.some.inj hk).symm, _, ha, hspell hd ha⟩
        · cases hk
  · have hproc : ∀ ty, ¬ (ty = FType.dir ∧ ∃ p, h.alive p = true ∧ x = decimal p.toNat) := by
      rintro ty ⟨-, p, -, hp⟩
      rw [hp] at hd
      exact hd (decimal_head _)
    constructor
    · exact fun _ hd' => absurd hd' hd
    · intro _ ty
      rw [mem_rootEntries hx, or_iff_right (hproc ty), mem_fixedEntries hd]

/-! ## What opens -/

theorem opens_content {slots : Slots} {t : Int} (hp : procSub path = some sub)
    (hdir : h.isDirNode (h.pcParse sub) = false) (hlink : pcLinkName (h.pcParse sub) = none) :
    (∃ text, (h.procfsOpen slots t path {}).2 = .content text) ↔
      (h.pcGenNode slots t (h.pcParse sub)).2.isSome = true := by
  simp only [Host.procfsOpen, hp, hdir, hlink, Bool.false_eq_true, if_false]
  rcases h.pcGenNode slots t (h.pcParse sub) with ⟨slots', _ | text⟩
  · simp
  · simp

end Types

/-! ## Directory by directory -/

section Directories

variable {h : Host} {slots : Slots} {t : Int} {d sub x : Text} {es : List (Text × FType)}
  (hx : EntryName x) (hd : procSub d = some sub)

theorem coherent_iff (hd : procSub d = some sub) : Coherent h slots t d es x ↔
    (∀ ty, (x, ty) ∈ es ↔ h.typeAt (join sub x) = some ty) ∧
    ((x, .reg) ∈ es → ∃ text, (h.procfsOpen slots t (join d x) {}).2 = .content text) := by
  constructor
  · intro hc
    exact ⟨fun ty => (hc.listed_iff ty).trans (vstat_type (procSub_join hd) ty), hc.opens⟩
  · rintro ⟨hl, ho⟩
    exact ⟨fun ty => (hl ty).trans (vstat_type (procSub_join hd) ty).symm, ho⟩

/-- What a listed directory is. -/
theorem listNode_entries {n : Node} (hl : h.listNode n = .entries es) :
    (n.kind = .root ∧ es = h.rootEntries) ∨ (n.kind = .netDir ∧ es = netEntries) ∨
    (h.alive n.pid = true ∧
      ((n.kind = .pidDir ∧ es = pidEntries false) ∨
       (n.kind = .pidSub ∧
        ((n.name = "task".toList ∧ n.rest = [] ∧ es = dots ++ (h.tids n.pid).map (entry .dir)) ∨
         (n.name = "task".toList ∧ n.rest ≠ [] ∧ '/' ∉ n.rest ∧ es = pidEntries true) ∨
         (n.name = "net".toList ∧ n.rest = [] ∧ es = netEntries) ∨
         (n.name = "fd".toList ∧ n.rest = [] ∧ es = dots ++ (h.fdNames n.pid).map (entry .lnk)))))) := by
  unfold Host.listNode at hl
  dsimp only at hl
  split at hl
  · exact Or.inl ⟨‹_›, (Listing.entries.inj hl).symm⟩
  · exact Or.inr (Or.inl ⟨‹_›, (Listing.entries.inj hl).symm⟩)
  · split at hl
    · exact Or.inr (Or.inr ⟨‹_›, Or.inl ⟨‹_›, (Listing.entries.inj hl).symm⟩⟩)
    · cases hl
  · rename_i hk
    split at hl
    · rename_i hn
      split at hl
      · cases hl
      · rename_i ha
        rw [Bool.not_eq_false] at ha
        split at hl
        · exact Or.inr (Or.inr ⟨ha, Or.inr ⟨hk, Or.inl ⟨hn, ‹_›, (Listing.entries.inj hl).symm⟩⟩⟩)
        · rename_i hr
          split at hl
          · rename_i hs
            exact Or.inr (Or.inr ⟨ha, Or.inr ⟨hk, Or.inr (Or.inl
              ⟨hn, hr, hs, (Listing.entries.inj hl).symm⟩)⟩⟩)
          · cases hl
    · split at hl
      · rename_i hn
        split at hl
        · exact Or.inr (Or.inr ⟨‹_›, Or.inr ⟨hk, Or.inr (Or.inr (Or.inl
            ⟨hn.1, hn.2, (Listing.entries.inj hl).symm⟩))⟩⟩)
        · cases hl
      · split at hl
        · rename_i hn
          split at hl
          · exact Or.inr (Or.inr ⟨‹_›, Or.inr ⟨hk, Or.inr (Or.inr (Or.inr
              ⟨hn.1, hn.2, (Listing.entries.inj hl).symm⟩))⟩⟩)
          · cases hl
        · cases hl
  · cases hl

include hx hd

theorem root_coherent (hk : (h.pcParse sub).kind = .root) :
    Coherent h slots t d h.rootEntries x ↔ h.Steady slots t (h.pcParse sub) x := by
  rw [coherent_iff hd]
  simp only [typeAt_root hx hk]
  have hsteady : h.Steady slots t (h.pcParse sub) x ↔
      (∀ ty, (x, ty) ∈ h.rootEntries ↔ h.rootKind x = some ty) := by
    rw [root_listed_iff hx]
    simp only [Host.Steady, hk]
  rw [hsteady, and_iff_left_of_imp]
  intro _ hreg
  have hx' : (x, FType.reg) ∈ fixedEntries := by
    rcases (mem_rootEntries hx .reg).mp hreg with ⟨hty, -⟩ | hmem
    · cases hty
    · exact hmem
  have htable : ∀ e ∈ fixedEntries, e.2 = FType.reg → e.1 ∈ topFiles := by decide
  have htop : ∀ y ∈ topFiles, y.length < 63 ∧ y ≠ "self".toList ∧ y.head?.any Char.isDigit = false ∧
      y ≠ "net".toList ∧ y ≠ "sys".toList := by decide
  have hmem := htable _ hx' rfl
  obtain ⟨hlen, hself, hdigit, hnet, hsys⟩ := htop x hmem
  have hm : h.pcParse (join sub x) = { kind := .top, name := x } := by
    rw [(pcParse_entry hx h sub).1 hk, (take_eq_iff hlen).mpr rfl, Host.parseRest, if_neg hself,
      if_neg (by simp [hdigit]), if_neg hnet, if_neg hsys, if_pos rfl]
  rw [opens_content (procSub_join hd) (by rw [hm]; rfl) (by rw [hm]; rfl), hm]
  exact genTopFile_isSome_iff.mpr hmem

omit hx in
theorem net_opens (hn : x ∈ netFiles) {m : Node} (hm : h.pcParse (join sub x) = m)
    (hdir : h.isDirNode m = false) (hlink : pcLinkName m = none)
    (hgen : h.pcGenNode slots t m = (slots, h.genNetFile x)) :
    ∃ text, (h.procfsOpen slots t (join d x) {}).2 = .content text := by
  rw [opens_content (procSub_join hd) (by rw [hm]; exact hdir) (by rw [hm]; exact hlink), hm, hgen]
  exact genNetFile_isSome_iff.mpr hn

theorem netDir_coherent (hk : (h.pcParse sub).kind = .netDir) : Coherent h slots t d netEntries x := by
  rw [coherent_iff hd]
  refine ⟨fun ty => by rw [typeAt_netDir hx hk, mem_netEntries hx], fun hreg => ?_⟩
  have hmem := netFiles_of_listed hx hreg
  have hshort : ∀ y ∈ netFiles, y.length < 63 := by decide
  have hm := (pcParse_entry hx h sub).2.1 hk
  rw [(take_eq_iff (hshort x hmem)).mpr rfl] at hm
  exact net_opens hd hmem hm rfl rfl rfl

theorem netSub_coherent (hk : (h.pcParse sub).kind = .pidSub) (hn : (h.pcParse sub).name = "net".toList)
    (hr : (h.pcParse sub).rest = []) (ha : h.alive (h.pcParse sub).pid = true) :
    Coherent h slots t d netEntries x := by
  rw [coherent_iff hd]
  refine ⟨fun ty => by rw [typeAt_net hx hk hn hr ha, mem_netEntries hx], fun hreg => ?_⟩
  have hmem := netFiles_of_listed hx hreg
  have hshort : ∀ y ∈ netFiles, y.length < 199 := by decide
  have hm := (pcParse_entry hx h sub).2.2.2 hk
  rw [if_pos hr, (take_eq_iff (hshort x hmem)).mpr rfl] at hm
  have htask : (h.pcParse sub).name ≠ "task".toList := by rw [hn]; decide
  refine net_opens hd hmem hm ?_ ?_ ?_
  · simp only [Host.isDirNode, hk]
    rw [if_pos (Or.inr hn), decide_eq_false hx.ne_nil]
  · simp only [pcLinkName, hk, ne_eq, not_true_eq_false, if_false]
    rw [if_neg htask, if_pos hx.ne_nil]
  · simp only [Host.pcGenNode, hk]
    rw [if_neg hx.ne_nil, if_neg htask, if_pos hn, if_pos ⟨hx.noSlash, ha⟩]

omit hx in
/-- The files of a process open unless their slot says it is absent. -/
theorem pid_opens {m : Node} {y : Text} (hm : h.pcParse (join sub x) = m) (hdir : h.isDirNode m = false)
    (hlink : (pcLinkName m).isSome = false) (ha : h.alive m.pid = true) (hy : y ∈ pidVolatile ++ pidStable)
    (hgen : h.pcGenNode slots t m = h.pcPidContent slots t m.pid y) :
    (∃ text, (h.procfsOpen slots t (join d x) {}).2 = .content text) ↔ ¬ h.withheld slots t m.pid y := by
  have hnone : pcLinkName m = none := by simpa using hlink
  rw [opens_content (procSub_join hd) (by rw [hm]; exact hdir) (by rw [hm]; exact hnone), hm, hgen,
    pcPidContent_isSome ha hy, Host.withheld, Bool.not_eq_true', ← Bool.not_eq_true, Bool.and_eq_true]

omit hx hd in
/-- Only content files come out of a slot. -/
theorem content_of_slotted {pid : UInt32} (hs : h.slotted pid x = true) : x ∈ pidVolatile ++ pidStable := by
  have hfixed : ∀ y ∈ ["cmdline", "comm"].map String.toList, y ∈ pidVolatile ++ pidStable := by decide
  have henv : "environ".toList ∈ pidVolatile ++ pidStable := by decide
  rw [Host.slotted, Bool.or_eq_true, Bool.or_eq_true, Bool.and_eq_true, decide_eq_true_eq,
    decide_eq_true_eq, decide_eq_true_eq] at hs
  rcases hs with (hv | hf) | ⟨he, -⟩
  · exact List.mem_append_left _ hv
  · exact hfixed x hf
  · rw [he]
    exact henv

omit hx hd in
theorem fileKind_reg : fileKind x = some .reg ↔ x ∈ pidVolatile ++ pidStable := by
  have hlink : ∀ y ∈ pidVolatile ++ pidStable, y ∉ linkNames := by decide
  rw [fileKind]
  constructor
  · intro hk
    split at hk
    · cases hk
    · split at hk
      · assumption
      · cases hk
  · intro hmem
    rw [if_neg (hlink x hmem), if_pos hmem]

theorem pidDir_coherent (hk : (h.pcParse sub).kind = .pidDir) (ha : h.alive (h.pcParse sub).pid = true) :
    Coherent h slots t d (pidEntries false) x ↔ h.Steady slots t (h.pcParse sub) x := by
  have hsteady : h.Steady slots t (h.pcParse sub) x ↔ ¬ h.withheld slots t (h.pcParse sub).pid x := by
    simp only [Host.Steady, hk]
  have hlisted : ∀ ty, (x, ty) ∈ pidEntries false ↔ h.typeAt (join sub x) = some ty := by
    intro ty
    rw [typeAt_pidDir hx hk ha, mem_pidEntries hx, if_neg (by decide)]
  have hreg : (x, FType.reg) ∈ pidEntries false ↔ x ∈ pidVolatile ++ pidStable := by
    have hdirs : ∀ y ∈ ["task", "net", "fd"].map String.toList, y ∉ pidVolatile ++ pidStable := by decide
    rw [mem_pidEntries hx, if_neg (by decide), subKind]
    split
    · rename_i hdir
      simp only [hdirs x hdir, iff_false]
      decide
    · exact fileKind_reg
  have hopens : x ∈ pidVolatile ++ pidStable →
      ((∃ text, (h.procfsOpen slots t (join d x) {}).2 = .content text) ↔
        ¬ h.withheld slots t (h.pcParse sub).pid x) := by
    intro hmem
    have hnames : ∀ y ∈ pidVolatile ++ pidStable, y.length < 63 ∧ y ∉ linkNames ∧
        y ∉ ["task", "net", "fd"].map String.toList := by decide
    obtain ⟨hlen, hlink, hdirs⟩ := hnames x hmem
    obtain ⟨hr, hm⟩ := (pcParse_entry hx h sub).2.2.1 hk
    rw [(take_eq_iff hlen).mpr rfl] at hm
    generalize h.pcParse sub = n at hr hm ha
    obtain ⟨m, hm'⟩ : ∃ m : Node, m = { n with kind := .pidSub, name := x } := ⟨_, rfl⟩
    have hkind : m.kind = .pidSub := by rw [hm']
    have hname : m.name = x := by rw [hm']
    have hrest : m.rest = [] := by rw [hm']; exact hr
    have hpid : m.pid = n.pid := by rw [hm']
    obtain ⟨hl, hdir, -⟩ := below_named hkind hrest (by rw [hpid]; exact ha)
    rw [← hpid] at ha ⊢
    refine pid_opens hd (hm.trans hm'.symm) (by rw [hdir, hname, decide_eq_false hdirs])
      (by rw [hl, hname, decide_eq_false hlink]) ha hmem ?_
    simp only [Host.pcGenNode, hkind, hrest, hname, if_true]
  rw [coherent_iff hd, hsteady, hreg]
  constructor
  · rintro ⟨-, ho⟩ hw
    have hmem := content_of_slotted hw.1
    exact (hopens hmem).mp (ho hmem) hw
  · intro hw
    exact ⟨hlisted, fun hmem => (hopens hmem).mpr hw⟩

omit hx hd in
/-- A listing of names of one type. -/
theorem mem_named (hx : EntryName x) {names : List Text} (hshort : ∀ y ∈ names, y.length ≤ 31)
    (type ty : FType) : (x, ty) ∈ dots ++ names.map (entry type) ↔ some type = some ty ∧ x ∈ names := by
  rw [List.mem_append, or_iff_right (ne_dots hx), List.mem_map]
  constructor
  · rintro ⟨y, hy, he⟩
    rw [entry, List.take_of_length_le (hshort y hy), Prod.mk.injEq] at he
    obtain ⟨rfl, rfl⟩ := he
    exact ⟨rfl, hy⟩
  · rintro ⟨hty, hmem⟩
    refine ⟨x, hmem, ?_⟩
    rw [entry, List.take_of_length_le (hshort x hmem), Option.some.inj hty]

omit hx hd in
theorem tids_short (pid : UInt32) : ∀ y ∈ h.tids pid, y.length ≤ 31 := by
  intro y hy
  have h64 : ∀ n : UInt64, (decimal n.toNat).length ≤ 20 := fun n =>
    (Nat.length_toDigits_le_iff (by decide) (by decide)).mpr (Nat.lt_trans n.toNat_lt (by decide))
  rw [Host.tids] at hy
  split at hy
  · have := decimal_length pid
    rw [List.mem_singleton.mp hy]
    omega
  · obtain ⟨n, -, rfl⟩ := List.mem_map.mp hy
    have := h64 n
    omega

omit hx hd in
theorem fdNames_short (pid : UInt32) : ∀ y ∈ h.fdNames pid, y.length ≤ 31 := by
  intro y hy
  obtain ⟨e, -, rfl⟩ := List.mem_map.mp hy
  rw [List.length_take]
  omega

/-- Where any name stats as `type`, the listed ones are the coherent ones. -/
theorem named_coherent {names : List Text} (hshort : ∀ y ∈ names, y.length ≤ 31) {type : FType}
    (hne : type ≠ .reg) (htype : h.typeAt (join sub x) = some type) :
    Coherent h slots t d (dots ++ names.map (entry type)) x ↔ x ∈ names := by
  rw [coherent_iff hd, htype]
  constructor
  · rintro ⟨hl, -⟩
    exact ((mem_named hx hshort type type).mp ((hl type).mpr rfl)).2
  · intro hmem
    refine ⟨fun ty => ?_, fun hreg => ?_⟩
    · rw [mem_named hx hshort, and_iff_left hmem]
    · exact absurd (Option.some.inj ((mem_named hx hshort type .reg).mp hreg).1) hne

theorem thread_coherent (hk : (h.pcParse sub).kind = .pidSub) (hn : (h.pcParse sub).name = "task".toList)
    (hr : (h.pcParse sub).rest ≠ []) (hs : '/' ∉ (h.pcParse sub).rest)
    (ha : h.alive (h.pcParse sub).pid = true) :
    Coherent h slots t d (pidEntries true) x ↔ h.Steady slots t (h.pcParse sub) x := by
  have htype := typeAt_thread hx hk hn hr hs ha
  have hparse := (pcParse_entry hx h sub).2.2.2 hk
  rw [if_neg hr] at hparse
  rw [coherent_iff hd, htype]
  simp only [mem_pidEntries hx, if_true]
  generalize h.pcParse sub = n at hk hn hr hs ha hparse
  have hsteady : h.Steady slots t n x ↔ n.rest.length < 199 ∧
      fileKind (x.take (198 - n.rest.length)) = fileKind x ∧
      ¬ h.withheld slots t n.pid (x.take (198 - n.rest.length)) := by
    simp only [Host.Steady, hk]
    rw [if_pos hn, if_neg hr]
  rw [hsteady]
  by_cases hlen : n.rest.length < 199
  · simp only [hlen, if_true, true_and]
    have hlisted : (∀ ty, fileKind x = some ty ↔ fileKind (x.take (198 - n.rest.length)) = some ty) ↔
        fileKind (x.take (198 - n.rest.length)) = fileKind x := by
      constructor
      · intro hall
        exact (Option.ext hall).symm
      · intro heq ty
        rw [heq]
    rw [hlisted]
    refine and_congr_right fun heq => ?_
    rw [fileKind_reg, ← fileKind_reg, ← heq, fileKind_reg]
    have hopens : x.take (198 - n.rest.length) ∈ pidVolatile ++ pidStable →
        ((∃ text, (h.procfsOpen slots t (join d x) {}).2 = .content text) ↔
          ¬ h.withheld slots t n.pid (x.take (198 - n.rest.length))) := by
      intro hmem
      have hcut := join_take x hlen
      obtain ⟨m, hm'⟩ : ∃ m : Node, m = { n with rest := (join n.rest x).take 199 } := ⟨_, rfl⟩
      have hkind : m.kind = .pidSub := by rw [hm']; exact hk
      have hname : m.name = "task".toList := by rw [hm']; exact hn
      have hrest : m.rest = n.rest ++ '/' :: x.take (198 - n.rest.length) := by rw [hm', ← hcut]
      have hpid : m.pid = n.pid := by rw [hm']
      have hy := slash_notMem_take hx (198 - n.rest.length)
      have hfiles : ∀ y ∈ pidVolatile ++ pidStable, y ∉ linkNames := by decide
      rw [← hpid] at ha ⊢
      obtain ⟨hl, hdir, -⟩ := below_thread hkind hname hrest hs hy ha
      refine pid_opens hd (hparse.trans hm'.symm) hdir (by rw [hl, decide_eq_false (hfiles _ hmem)])
        ha hmem ?_
      have hne : m.rest ≠ [] := by rw [hrest]; simp
      simp only [Host.pcGenNode, hkind]
      rw [if_neg hne, if_pos hname, hrest, lastOf_thread hs hy]
    constructor
    · intro ho hw
      have hmem := content_of_slotted hw.1
      exact (hopens hmem).mp (ho hmem) hw
    · intro hw hmem
      exact (hopens hmem).mpr hw
  · simp only [hlen, if_false, false_and, iff_false, not_and]
    intro hl
    have hdir := (hl .dir).mpr rfl
    have hnone : fileKind x ≠ some .dir := by
      rw [fileKind]
      split
      · decide
      · split <;> decide
    exact absurd hdir hnone

end Directories

/-! ## What can be listed -/

section Listed

variable {h : Host} {sub path : Text}

theorem dirNode_listed {n : Node} (hk : n.kind = .pidSub) (ha : h.alive n.pid = true)
    (hd : h.isDirNode n = true) : ∃ es, h.listNode n = .entries es := by
  simp only [Host.isDirNode, hk] at hd
  simp only [Host.listNode, hk, ha, if_true, Bool.true_eq_false, if_false]
  have htask : "task".toList ≠ "fd".toList ∧ "task".toList ≠ "net".toList := by decide
  by_cases ht : n.name = "task".toList
  · have hother : ¬ (n.name = "fd".toList ∨ n.name = "net".toList) := by
      rw [ht]
      decide
    rw [if_neg hother, if_pos ht, Bool.or_eq_true, decide_eq_true_eq, decide_eq_true_eq] at hd
    rw [if_pos ht]
    by_cases hr : n.rest = []
    · exact ⟨_, if_pos hr⟩
    · rw [if_neg hr]
      exact ⟨_, if_pos (hd.resolve_left hr)⟩
  · rw [if_neg ht]
    by_cases hf : n.name = "fd".toList ∨ n.name = "net".toList
    · rw [if_pos hf, decide_eq_true_eq] at hd
      by_cases hnet : n.name = "net".toList ∧ n.rest = []
      · exact ⟨_, if_pos hnet⟩
      · rw [if_neg hnet]
        rcases hf with hf | hf
        · exact ⟨_, if_pos ⟨hf, hd⟩⟩
        · exact absurd ⟨hf, hd⟩ hnet
    · rw [if_neg hf, if_neg ht] at hd
      cases hd

/-- A directory outside /proc/sys, not through a link. -/
theorem dir_listed {n : Node} (hk : n.kind ≠ .sys) (hst : (h.statNode n).type? = some .dir) :
    ∃ es, h.listNode n = .entries es := by
  have hcontent : (if h.contentExists n = true then VStat.ok regStat else .failed).type? ≠ some .dir := by
    split <;> decide
  cases hkind : n.kind with
  | root => exact ⟨h.rootEntries, by simp only [Host.listNode, hkind]⟩
  | netDir => exact ⟨netEntries, by simp only [Host.listNode, hkind]⟩
  | sys => exact absurd hkind hk
  | pidDir =>
    simp only [Host.statNode, hkind] at hst
    split at hst
    · rename_i ha
      exact ⟨pidEntries false, by simp only [Host.listNode, hkind, ha, if_true]⟩
    · cases hst
  | pidSub =>
    simp only [Host.statNode, hkind] at hst
    split at hst
    · cases hst
    · rename_i ha
      rw [Bool.not_eq_false] at ha
      split at hst
      · exact dirNode_listed hkind ha ‹_›
      · exact absurd hst hcontent
  | top | netFile | other =>
    simp only [Host.statNode, hkind] at hst
    exact absurd hst hcontent

/-- The directories of /proc/sys. -/
theorem sys_dir_iff {n : Node} (hk : n.kind = .sys) :
    (h.statNode n).type? = some .dir ↔ n.rest = [] ∨ n.rest ∈ sysDirs := by
  have hapart : ∀ y ∈ sysDirs, y ∉ sysFiles := by decide
  simp only [Host.statNode, hk, Host.genSysFile]
  by_cases hr : n.rest = []
  · simp [hr, VStat.type?, dirStat]
  · rw [if_neg hr, or_iff_right hr]
    by_cases hf : n.rest ∈ sysFiles
    · have hd : n.rest ∉ sysDirs := fun hd => hapart _ hd hf
      simp [hf, hd, VStat.type?, regStat]
    · by_cases hd : n.rest ∈ sysDirs <;> simp [hf, hd, VStat.type?, dirStat]

/-- Of the links, only the one to a process is listed. -/
theorem link_listed_iff (hl : h.linkMode sub ≠ 0) : (∃ es, h.listNode (h.pcParse sub) = .entries es) ↔
    (h.pcParse sub).kind = .pidDir ∧ h.alive (h.pcParse sub).pid = true := by
  unfold Host.linkMode at hl
  dsimp only at hl
  generalize h.pcParse sub = n at hl
  by_cases hk : n.kind = .pidDir
  · simp only [Host.listNode, hk, true_and]
    by_cases ha : h.alive n.pid = true <;> simp [ha]
  · rw [if_neg (fun hc => hk hc.1)] at hl
    by_cases hs : n.kind = .pidSub
    · rw [if_neg (by simp [hs])] at hl
      simp only [hk, false_and, iff_false]
      rintro ⟨es, he⟩
      have hname : ∀ y ∈ linkNames, y ≠ "net".toList ∧ y ≠ "fd".toList ∧ y ≠ "task".toList := by decide
      rcases listNode_entries he with ⟨hc, -⟩ | ⟨hc, -⟩ | ⟨-, ⟨hc, -⟩ | ⟨-, hsub⟩⟩
      · rw [hs] at hc; cases hc
      · rw [hs] at hc; cases hc
      · exact hk hc
      · have hfd : ¬ (n.name = "fd".toList ∧ n.rest ≠ [] ∧ '/' ∉ n.rest) := by
          rintro ⟨hn, hr, -⟩
          rcases hsub with ⟨hn', -⟩ | ⟨hn', -⟩ | ⟨-, hr', -⟩ | ⟨-, hr', -⟩
          · rw [hn] at hn'; revert hn'; decide
          · rw [hn] at hn'; revert hn'; decide
          · exact hr hr'
          · exact hr hr'
        have hlink : pcLinkName n = none := by
          rw [pcLinkName, if_neg (by simp [hs])]
          by_cases ht : n.name = "task".toList
          · have hlast : lastOf n.rest = none := by
              have hslash : '/' ∉ n.rest := by
                rcases hsub with ⟨-, hr, -⟩ | ⟨-, -, hr, -⟩ | ⟨-, hr, -⟩ | ⟨-, hr, -⟩
                · rw [hr]; simp
                · exact hr
                · rw [hr]; simp
                · rw [hr]; simp
              exact lastOf_none hslash
            rw [if_pos ht, hlast]
            rfl
          · rw [if_neg ht]
            split
            · rfl
            · split
              · rename_i hmem
                have := hname _ hmem
                rcases hsub with ⟨hn', -⟩ | ⟨hn', -⟩ | ⟨hn', -⟩ | ⟨hn', -⟩
                · exact absurd hn' ht
                · exact absurd hn' ht
                · exact absurd hn' this.1
                · exact absurd hn' this.2.1
              · rfl
        rw [if_neg (by simp [hlink]), if_neg hfd] at hl
        exact hl rfl
    · rw [if_pos hs] at hl
      exact absurd rfl hl

theorem procSub_drop {d : Text} (hd : procSub d = some sub) : d.drop 5 = sub := by
  unfold procSub at hd
  split at hd
  · exact Option.some.inj hd
  · cases hd

theorem dirListed_iff (h : Host) (path : Text) (nofollow : Bool) :
    DirListed h path nofollow ↔ ¬ h.Unlisted path nofollow := by
  cases hp : procSub path with
  | none =>
    constructor
    · rintro - ⟨sub, hs, -⟩
      rw [hp] at hs
      cases hs
    · rintro - ⟨st, hst, -⟩
      simp only [Host.vstat, hp] at hst
      cases hst
  | some sub =>
    have hlist : h.virtualDir path = h.listNode (h.pcParse sub) := by simp only [Host.virtualDir, hp]
    have hun : h.Unlisted path nofollow ↔ h.UnlistedSub sub nofollow := by
      constructor
      · rintro ⟨s, hs, hc⟩
        obtain rfl := Option.some.inj (hp.symm.trans hs)
        exact hc
      · exact fun hc => ⟨sub, hp, hc⟩
    rw [DirListed, hlist, hun, Host.UnlistedSub]
    by_cases hl : h.linkMode sub = 0
    · have hst : (∃ st, h.vstat path nofollow = .ok st ∧ st.type = .dir) ↔
          (h.statNode (h.pcParse sub)).type? = some .dir := by
        simp only [Host.vstat, hp, hl, ne_eq, not_true_eq_false, if_false]
        cases h.statNode (h.pcParse sub) <;> simp [VStat.type?]
      simp only [hst, hl, ne_eq, not_true_eq_false, false_and, and_false, or_false]
      by_cases hk : (h.pcParse sub).kind = .sys
      · have hnot : ¬ ∃ es, h.listNode (h.pcParse sub) = .entries es := by
          simp [Host.listNode, hk]
        rw [sys_dir_iff hk, imp_iff_not hnot]
        simp only [hk, true_and]
      · simp only [hk, false_and, not_false_eq_true, iff_true]
        exact dir_listed hk
    · have hlink := link_listed_iff hl
      have hkind : (h.pcParse sub).kind ≠ .sys := by
        intro hk
        apply hl
        rw [Host.linkMode, if_neg (by simp [hk]), if_pos (by simp [hk])]
      rw [hlink]
      simp only [hkind, false_and, false_or, ne_eq, hl, not_false_eq_true, true_and]
      cases nofollow with
      | true =>
        simp only [Host.vstat, hp, ne_eq, hl, not_false_eq_true, if_true, Bool.true_eq_false,
          false_and, iff_true]
        rintro ⟨st, hst, hdir⟩
        rw [← VStat.ok.inj hst] at hdir
        cases hdir
      | false =>
        have hst : (∃ st, h.vstat path false = .ok st ∧ st.type = .dir) ↔
            ∃ target st, h.linkOfNode (h.pcParse sub) sub 511 = some target ∧
              h.statTarget target = .ok st ∧ st.type = .dir := by
          simp only [Host.vstat, hp, ne_eq, hl, not_false_eq_true, if_true, Bool.false_eq_true, if_false]
          cases h.linkOfNode (h.pcParse sub) sub 511 <;> simp
        rw [hst]
        simp only [true_and, not_and, Classical.not_imp, Bool.not_eq_false]

/-- **The tree is coherent** name by name exactly under `Steady`, and its directories can
be listed exactly outside `Unlisted`. -/
theorem proc_tree_coherent_iff (h : Host) (slots : Slots) (t : Int) :
    (∀ d es x, h.virtualDir d = .entries es → EntryName x →
      (Coherent h slots t d es x ↔ h.Steady slots t (h.pcParse (d.drop 5)) x)) ∧
    (∀ path nofollow, DirListed h path nofollow ↔ ¬ h.Unlisted path nofollow) := by
  refine ⟨fun d es x hl hx => ?_, dirListed_iff h⟩
  cases hd : procSub d with
  | none =>
    simp only [Host.virtualDir, hd] at hl
    cases hl
  | some sub =>
    simp only [Host.virtualDir, hd] at hl
    rw [procSub_drop hd]
    rcases listNode_entries hl with ⟨hk, rfl⟩ | ⟨hk, rfl⟩ | ⟨ha, ⟨hk, rfl⟩ | ⟨hk, hsub⟩⟩
    · exact root_coherent hx hd hk
    · simp only [netDir_coherent hx hd hk, Host.Steady, hk]
    · exact pidDir_coherent hx hd hk ha
    · rcases hsub with ⟨hn, hr, rfl⟩ | ⟨hn, hr, hs, rfl⟩ | ⟨hn, hr, rfl⟩ | ⟨hn, hr, rfl⟩
      · rw [named_coherent hx hd (tids_short _) (by decide) (typeAt_task hx hk hn hr ha)]
        simp only [Host.Steady, hk]
        rw [if_pos hn, if_pos hr]
      · exact thread_coherent hx hd hk hn hr hs ha
      · have htask : (h.pcParse sub).name ≠ "task".toList := by rw [hn]; decide
        have hfd : (h.pcParse sub).name ≠ "fd".toList := by rw [hn]; decide
        simp only [netSub_coherent hx hd hk hn hr ha, Host.Steady, hk, if_neg htask, if_neg hfd]
      · have htask : (h.pcParse sub).name ≠ "task".toList := by rw [hn]; decide
        rw [named_coherent hx hd (fdNames_short _) (by decide) (typeAt_fd hx hk hn hr)]
        simp only [Host.Steady, hk]
        rw [if_neg htask, if_pos hn]

/-- The status of its process is found, listed and opened. -/
theorem proc_tree_coherent_status :
    Coherent plainHost (fun _ => {}) 5000 "/proc/7".toList (pidEntries false) "status".toList := by
  have hx : EntryName "status".toList := ⟨by decide, by decide, by decide, by decide⟩
  refine ((proc_tree_coherent_iff plainHost (fun _ => {}) 5000).1 _ _ _ (by decide) hx).mpr ?_
  rintro ⟨-, hs⟩
  revert hs
  decide

/-- A thread and a descriptor that do not exist are found but not listed, and the
directory /proc/sys is found but cannot be listed. -/
theorem proc_tree_incoherent :
    (∃ es, plainHost.virtualDir "/proc/7/task".toList = .entries es ∧
      ¬ Coherent plainHost (fun _ => {}) 5000 "/proc/7/task".toList es "x".toList) ∧
    (∃ es, plainHost.virtualDir "/proc/7/fd".toList = .entries es ∧
      ¬ Coherent plainHost (fun _ => {}) 5000 "/proc/7/fd".toList es "9".toList) ∧
    ¬ DirListed plainHost "/proc/sys".toList true := by
  refine ⟨⟨_, rfl, fun hc => ?_⟩, ⟨_, rfl, fun hc => ?_⟩, fun hl => ?_⟩
  · have hmem := (hc.listed_iff .dir).mpr ⟨dirStat, by decide, rfl⟩
    revert hmem
    decide
  · have hmem := (hc.listed_iff .lnk).mpr ⟨⟨.lnk, 0o700, 1⟩, by decide, rfl⟩
    revert hmem
    decide
  · obtain ⟨es, he⟩ := hl ⟨dirStat, by decide, rfl⟩
    have hnone : plainHost.virtualDir "/proc/sys".toList = .notListed := by decide
    rw [hnone] at he
    cases he

end Listed

end ApeShim.Procfs
