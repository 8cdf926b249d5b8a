import ApeShim.Lib.CString
import Mathlib.Data.List.Nodup
import Mathlib.Data.Option.Basic

/-!
Interface names and indexes (`shim/ifname.c`). A name's index comes from an ioctl, on NT from the
adapter that its friendly name belongs to, or else from its place in the list of the host.
-/

namespace ApeShim.Ifname
open CString

abbrev Name := List UInt8

def ifnamsiz : Nat := 16

def maxIfs : Nat := 128

/-- `struct NtIpAdapterAddresses`, as far as it is read. -/
structure Adapter where
  /-- up to its NUL; nothing for a null pointer -/
  friendlyName : Option (List UInt16)
  ifIndex : Nat
  ifIndex_pos : 0 < ifIndex

/-- What the system answers. -/
structure Host where
  isLinux : Bool
  isWindows : Bool
  /-- the entries of `/sys/class/net`; nothing where it cannot be opened -/
  sysfs : Option (List Name)
  /-- the `ifr_name` fields of SIOCGIFCONF -/
  ifconf : Option (List (List UInt8))
  /-- SIOCGIFINDEX; nothing where it fails -/
  ifindex : Name → Option Int
  /-- SIOCGIFNAME: `ifr_name` -/
  ifname : Nat → Option (List UInt8)
  /-- GetAdaptersAddresses -/
  adapters : Option (List Adapter)

/-! ## The enumeration -/

/-- `add_name` -/
def addName (out : List Name) (name : Name) : List Name :=
  if maxIfs ≤ out.length ∨ name = [] ∨ ifnamsiz ≤ name.length then out
  else
    let base := name.takeWhile (· ≠ 0x3a)
    if base = [] ∨ out.contains base then out else out ++ [base]

namespace Host

/-- `list_from_sysfs` -/
def listFromSysfs (h : Host) : Option (List Name) :=
  h.sysfs.bind fun entries =>
    let out := (entries.filter (·.head? ≠ some 0x2e)).foldl addName []
    if out = [] then none else some out

/-- `list_from_ioctl` -/
def listFromIoctl (h : Host) : Option (List Name) :=
  h.ifconf.map fun fields => (fields.map fun f => text (f.take (ifnamsiz - 1))).foldl addName []

/-- `list_names` -/
def listNames (h : Host) : Option (List Name) :=
  if h.isLinux then h.listFromSysfs <|> h.listFromIoctl else h.listFromIoctl

/-- The names that a loop over `list_names` sees. -/
def names (h : Host) : List Name := h.listNames.getD []

end Host

/-! ## The adapters -/

/-- `norm` -/
def norm (c : Nat) : UInt8 :=
  if (0x61 ≤ c ∧ c ≤ 0x7a) ∨ (0x41 ≤ c ∧ c ≤ 0x5a) ∨ (0x30 ≤ c ∧ c ≤ 0x39) ∨ c = 0x2d ∨ c = 0x2e then
    c.toUInt8
  else 0x5f

/-- The loop of `name_matches` from the `i`th character on. -/
def matchFrom (exact : Bool) (i : Nat) : Name → List UInt16 → Bool
  | [], friendly => decide (i ≠ 0) && (!exact || friendly.isEmpty)
  | c :: name, friendly =>
    if c = 0x3a then decide (i ≠ 0) && (!exact || friendly.isEmpty)
    else match friendly with
      | [] => false
      | u :: friendly => decide (norm c.toNat = norm u.toNat) && matchFrom exact (i + 1) name friendly

/-- `name_matches` -/
def nameMatches (name : Name) (exact : Bool) (a : Adapter) : Bool :=
  a.friendlyName.any (matchFrom exact 0 name)

/-- The inner loop of `nt_index_for`. -/
def search (name : Name) (exact : Bool) : List Adapter → Nat → Nat
  | [], idx => idx
  | p :: aa, idx =>
    if idx ≠ 0 then idx
    else search name exact aa (if nameMatches name exact p then p.ifIndex else idx)

namespace Host

/-- `nt_index_for` -/
def ntIndexFor (h : Host) (name : Name) : Nat :=
  h.adapters.elim 0 fun aa =>
    let idx := search name true aa 0
    if idx = 0 then search name false aa idx else idx

/-! ## The four calls -/

/-- `synth_index` -/
def synthIndex (h : Host) (name : Name) : Nat := (h.names.idxOf? name).elim 0 (· + 1)

/-- The index that the ioctl answers with. -/
def ioctlIndex (h : Host) (name : Name) : Option Nat :=
  (h.ifindex name).bind fun i => if 0 < i then some i.toNat else none

/-- `if_nametoindex`; 0 for ENODEV. -/
def nametoindex (h : Host) (name : Name) : Nat :=
  if name = [] ∨ ifnamsiz ≤ name.length then 0
  else
    let idx := (h.ioctlIndex name).getD 0
    let idx := if idx = 0 ∧ h.isWindows then h.ntIndexFor name else idx
    if idx = 0 then h.synthIndex name else idx

/-- The name that the ioctl answers with. -/
def ioctlName (h : Host) (index : Nat) : Option Name :=
  (h.ifname index).bind fun field =>
    if field.headD 0 = 0 then none else some (text (field.take (ifnamsiz - 1)))

/-- `if_indextoname`; nothing for ENXIO. -/
def indextoname (h : Host) (index : Nat) : Option Name :=
  if index = 0 then none
  else h.ioctlName index <|> h.names.find? (fun n => decide (h.nametoindex n = index))

/-- `if_nameindex` -/
def nameindex (h : Host) : Option (List (Nat × Name)) :=
  h.listNames.map fun names => names.map fun n => (h.nametoindex n, n)

/-- Names and indexes round-trip. -/
structure RoundTrips (h : Host) : Prop where
  name : ∀ table ∈ h.nameindex, ∀ p ∈ table, h.indextoname (h.nametoindex p.2) = some p.2
  apart : ∀ table ∈ h.nameindex, ∀ p ∈ table, ∀ q ∈ table, p.2 ≠ q.2 → p.1 ≠ q.1

/-! ## Where an index comes from -/

inductive Source
  | ioctl (index : Nat)
  | adapter (a : Adapter)
  | order (place : Nat)

/-- The adapter of a name: one of its very name, or else the first whose name it begins. -/
def adapterFor (h : Host) (name : Name) : Option Adapter :=
  let aa := h.adapters.getD []
  aa.find? (nameMatches name true) <|> aa.find? (nameMatches name false)

/-- Who answers for a listed name. -/
def source (h : Host) (name : Name) : Source :=
  match h.ioctlIndex name with
  | some i => .ioctl i
  | none =>
    match if h.isWindows then h.adapterFor name else none with
    | some a => .adapter a
    | none => .order (h.names.idxOf name)

/-- The sources do not get into each other's way. -/
structure Clear (h : Host) : Prop where
  /-- no two names are matched with adapters of one index -/
  adapters : ∀ n ∈ h.names, ∀ m ∈ h.names, ∀ a b, h.source n = .adapter a →
    h.source m = .adapter b → a.ifIndex = b.ifIndex → n = m
  /-- no place in the list is the index of an adapter that a name is matched with -/
  order : ∀ n ∈ h.names, ∀ m ∈ h.names, ∀ k a, h.source n = .order k → h.source m = .adapter a →
    a.ifIndex ≠ k + 1
  /-- the ioctls use no index of an adapter that a name is matched with -/
  adapter_unknown : ∀ n ∈ h.names, ∀ a, h.source n = .adapter a →
    h.ioctlName a.ifIndex = none ∧ ∀ m ∈ h.names, h.ioctlIndex m ≠ some a.ifIndex
  /-- nor a place in the list that a name gets for want of anything else -/
  order_unknown : ∀ n ∈ h.names, ∀ k, h.source n = .order k →
    h.ioctlName (k + 1) = none ∧ ∀ m ∈ h.names, h.ioctlIndex m ≠ some (k + 1)

end Host

/-- A system whose ioctls, as far as they answer, are about the same interfaces: two interfaces have
two indexes, SIOCGIFNAME names an interface of this index, and one that is listed by its name. -/
structure System extends Host where
  index_apart : ∀ n ∈ toHost.names, ∀ m ∈ toHost.names, ∀ i, toHost.ioctlIndex n = some i →
    toHost.ioctlIndex m = some i → n = m
  name_index : ∀ i n, toHost.ioctlName i = some n → toHost.ioctlIndex n = some i
  index_name : ∀ n ∈ toHost.names, ∀ i m, toHost.ioctlIndex n = some i →
    toHost.ioctlName i = some m → m = n

/-! ## The list -/

theorem addName_spec {out : List Name} (hnodup : out.Nodup)
    (hlen : ∀ n ∈ out, n ≠ [] ∧ n.length < ifnamsiz) (name : Name) :
    (addName out name).Nodup ∧ ∀ n ∈ addName out name, n ≠ [] ∧ n.length < ifnamsiz := by
  unfold addName
  split
  · exact ⟨hnodup, hlen⟩
  rename_i hname
  dsimp only
  split
  · exact ⟨hnodup, hlen⟩
  rename_i hbase
  simp only [not_or, Nat.not_le, List.contains_iff_mem] at hname hbase
  have hle : (name.takeWhile (· ≠ 0x3a)).length ≤ name.length :=
    (List.takeWhile_sublist _).length_le
  constructor
  · refine List.Nodup.append hnodup (List.nodup_singleton _) ?_
    rw [List.disjoint_singleton]
    exact hbase.2
  · intro n hn
    rcases List.mem_append.mp hn with hn | hn
    · exact hlen n hn
    · rw [List.mem_singleton.mp hn]
      exact ⟨hbase.1, Nat.lt_of_le_of_lt hle hname.2.2⟩

theorem foldl_addName_spec (names : List Name) {out : List Name} (hnodup : out.Nodup)
    (hlen : ∀ n ∈ out, n ≠ [] ∧ n.length < ifnamsiz) :
    (names.foldl addName out).Nodup ∧
      ∀ n ∈ names.foldl addName out, n ≠ [] ∧ n.length < ifnamsiz := by
  induction names generalizing out with
  | nil => exact ⟨hnodup, hlen⟩
  | cons name names ih =>
    obtain ⟨hnodup', hlen'⟩ := addName_spec hnodup hlen name
    exact ih hnodup' hlen'

namespace Host

variable {h : Host} {n m : Name} {i : Nat}

theorem listNames_spec {ns : List Name} (hns : h.listNames = some ns) :
    ∀ n ∈ ns, n ≠ [] ∧ n.length < ifnamsiz := by
  have hioctl : ∀ {ns}, h.listFromIoctl = some ns → ∀ n ∈ ns, n ≠ [] ∧ n.length < ifnamsiz := by
    intro ns hns
    obtain ⟨fields, -, rfl⟩ := Option.map_eq_some_iff.mp hns
    exact (foldl_addName_spec _ List.nodup_nil (by simp)).2
  unfold listNames at hns
  split at hns
  · rcases (Option.orElse_eq_some _ _ _).mp hns with hns | ⟨-, hns⟩
    · obtain ⟨entries, -, hns⟩ := Option.bind_eq_some_iff.mp hns
      dsimp only at hns
      split at hns
      · cases hns
      · cases hns
        exact (foldl_addName_spec _ List.nodup_nil (by simp)).2
    · exact hioctl hns
  · exact hioctl hns

theorem names_spec (hn : n ∈ h.names) : n ≠ [] ∧ n.length < ifnamsiz := by
  cases hns : h.listNames with
  | none =>
    rw [names, hns] at hn
    cases hn
  | some ns =>
    rw [names, hns] at hn
    exact listNames_spec hns n hn

/-! ## Who answers -/

theorem search_found (name : Name) (exact : Bool) (aa : List Adapter) (hi : i ≠ 0) :
    search name exact aa i = i := by
  cases aa with
  | nil => rfl
  | cons p aa => exact if_pos hi

theorem search_eq (name : Name) (exact : Bool) (aa : List Adapter) :
    search name exact aa 0 = (aa.find? (nameMatches name exact)).elim 0 Adapter.ifIndex := by
  induction aa with
  | nil => rfl
  | cons p aa ih =>
    rw [search, if_neg (by simp)]
    cases hp : nameMatches name exact p with
    | true =>
      rw [if_pos rfl, search_found name exact aa (Nat.ne_of_gt p.ifIndex_pos),
        List.find?_cons_of_pos hp]
      rfl
    | false => rw [if_neg (by simp), ih, List.find?_cons_of_neg (by simp [hp])]

theorem ntIndexFor_eq (h : Host) (name : Name) :
    h.ntIndexFor name = (h.adapterFor name).elim 0 Adapter.ifIndex := by
  cases haa : h.adapters with
  | none => simp [ntIndexFor, adapterFor, haa]
  | some aa =>
    rw [ntIndexFor, adapterFor, haa, Option.elim_some, Option.getD_some]
    dsimp only
    rw [search_eq]
    cases hexact : aa.find? (nameMatches name true) with
    | some a => exact if_neg (Nat.ne_of_gt a.ifIndex_pos)
    | none => exact (if_pos rfl).trans (search_eq name false aa)

theorem ioctlIndex_pos (hi : h.ioctlIndex n = some i) : 0 < i := by
  obtain ⟨j, -, hj⟩ := Option.bind_eq_some_iff.mp hi
  split at hj
  · cases hj
    omega
  · cases hj

/-- The index of a listed name, by its source. -/
def Source.number : Source → Nat
  | .ioctl i => i
  | .adapter a => a.ifIndex
  | .order k => k + 1

theorem number_pos (h : Host) (n : Name) : 0 < (h.source n).number := by
  unfold source
  split
  · exact ioctlIndex_pos ‹_›
  · split
    · exact Adapter.ifIndex_pos _
    · exact Nat.succ_pos _

theorem nametoindex_listed (hn : n ∈ h.names) : h.nametoindex n = (h.source n).number := by
  obtain ⟨hne, hlt⟩ := names_spec hn
  have hsynth : h.synthIndex n = h.names.idxOf n + 1 := by
    obtain ⟨k, hk⟩ := Option.isSome_iff_exists.mp (List.isSome_idxOf?.mpr hn)
    rw [synthIndex, List.idxOf_eq_getD_idxOf?, hk]
    rfl
  have hguard : ¬ (n = [] ∨ ifnamsiz ≤ n.length) := by
    rintro (hnil | hle)
    · exact hne hnil
    · exact Nat.not_le.mpr hlt hle
  rw [nametoindex, if_neg hguard, source]
  cases hi : h.ioctlIndex n with
  | some i =>
    have hi0 : i ≠ 0 := Nat.ne_of_gt (ioctlIndex_pos hi)
    simp [Source.number, hi0]
  | none =>
    dsimp only
    rw [Option.getD_none]
    cases hw : h.isWindows with
    | false => simpa [Source.number] using hsynth
    | true =>
      have hnt := ntIndexFor_eq h n
      cases ha : h.adapterFor n with
      | none =>
        rw [ha, Option.elim_none] at hnt
        simpa [Source.number, hnt] using hsynth
      | some a =>
        rw [ha, Option.elim_some] at hnt
        have hne : a.ifIndex ≠ 0 := Nat.ne_of_gt a.ifIndex_pos
        simp [Source.number, hnt, hne]

/-! ## The round trip -/

theorem indextoname_listed (hn : n ∈ h.names) : h.indextoname (h.nametoindex n) =
    (h.ioctlName (h.source n).number <|>
      h.names.find? (fun m => decide (h.nametoindex m = h.nametoindex n))) := by
  rw [indextoname, nametoindex_listed hn, if_neg (Nat.ne_of_gt (number_pos h n))]

/-- On the listed names, in terms of their sources. -/
theorem roundTrips_iff (h : Host) : h.RoundTrips ↔
    (∀ n ∈ h.names, h.indextoname (h.nametoindex n) = some n) ∧
      ∀ n ∈ h.names, ∀ m ∈ h.names, (h.source n).number = (h.source m).number → n = m := by
  have htable : ∀ {ns}, h.listNames = some ns → h.names = ns := fun hns => by
    rw [names, hns, Option.getD_some]
  constructor
  · rintro ⟨hname, hapart⟩
    cases hns : h.listNames with
    | none => simp [names, hns]
    | some ns =>
      rw [nameindex, hns] at hname hapart
      rw [htable hns]
      refine ⟨fun n hn => hname _ rfl _ (List.mem_map_of_mem hn), fun n hn m hm hnum => ?_⟩
      by_contra hne
      refine hapart _ rfl _ (List.mem_map_of_mem hn) _ (List.mem_map_of_mem hm) hne ?_
      rw [← htable hns] at hn hm
      rwa [nametoindex_listed hn, nametoindex_listed hm]
  · rintro ⟨hname, hinj⟩
    constructor
    · intro table ht p hp
      obtain ⟨ns, hns, rfl⟩ := Option.map_eq_some_iff.mp ht
      obtain ⟨n, hn, rfl⟩ := List.mem_map.mp hp
      exact hname n (htable hns ▸ hn)
    · intro table ht p hp q hq hne heq
      obtain ⟨ns, hns, rfl⟩ := Option.map_eq_some_iff.mp ht
      obtain ⟨n, hn, rfl⟩ := List.mem_map.mp hp
      obtain ⟨m, hm, rfl⟩ := List.mem_map.mp hq
      rw [← htable hns] at hn hm
      dsimp only at heq hne
      rw [nametoindex_listed hn, nametoindex_listed hm] at heq
      exact hne (hinj n hn m hm heq)

theorem source_ioctl : h.source n = .ioctl i ↔ h.ioctlIndex n = some i := by
  unfold source
  cases hi : h.ioctlIndex n with
  | some j => simp
  | none =>
    dsimp only
    split <;> simp

theorem source_order {k : Nat} (hk : h.source n = .order k) : k = h.names.idxOf n := by
  unfold source at hk
  split at hk
  · cases hk
  · split at hk
    · cases hk
    · exact (Source.order.inj hk).symm

end Host

namespace System

variable {s : System} {n m : Name}

/-- Where the sources are clear of each other, the number of a listed name tells the name. -/
theorem number_inj (hc : s.Clear) (hn : n ∈ s.names) (hm : m ∈ s.names)
    (h : (s.source n).number = (s.source m).number) : n = m := by
  cases hsn : s.source n with
  | ioctl i =>
    have hi := Host.source_ioctl.mp hsn
    cases hsm : s.source m with
    | ioctl j =>
      rw [hsn, hsm, Host.Source.number, Host.Source.number] at h
      exact s.index_apart n hn m hm i hi (h ▸ Host.source_ioctl.mp hsm)
    | adapter a =>
      rw [hsn, hsm, Host.Source.number, Host.Source.number] at h
      exact absurd (h ▸ hi) ((hc.adapter_unknown m hm a hsm).2 n hn)
    | order k =>
      rw [hsn, hsm, Host.Source.number, Host.Source.number] at h
      exact absurd (h ▸ hi) ((hc.order_unknown m hm k hsm).2 n hn)
  | adapter a =>
    cases hsm : s.source m with
    | ioctl j =>
      have hj := Host.source_ioctl.mp hsm
      rw [hsn, hsm, Host.Source.number, Host.Source.number] at h
      exact absurd (h ▸ hj) ((hc.adapter_unknown n hn a hsn).2 m hm)
    | adapter b =>
      rw [hsn, hsm, Host.Source.number, Host.Source.number] at h
      exact hc.adapters n hn m hm a b hsn hsm h
    | order k =>
      rw [hsn, hsm, Host.Source.number, Host.Source.number] at h
      exact absurd h (hc.order m hm n hn k a hsm hsn)
  | order k =>
    cases hsm : s.source m with
    | ioctl j =>
      have hj := Host.source_ioctl.mp hsm
      rw [hsn, hsm, Host.Source.number, Host.Source.number] at h
      exact absurd (h ▸ hj) ((hc.order_unknown n hn k hsn).2 m hm)
    | adapter b =>
      rw [hsn, hsm, Host.Source.number, Host.Source.number] at h
      exact absurd h.symm (hc.order n hn m hm k b hsn hsm)
    | order l =>
      rw [hsn, hsm, Host.Source.number, Host.Source.number] at h
      have hkl : s.names.idxOf n = s.names.idxOf m := by
        rw [← Host.source_order hsn, ← Host.source_order hsm]
        omega
      exact (List.idxOf_inj hn).mp hkl

/-- The ioctl names a listed name's index after it, or not at all. -/
theorem ioctlName_listed (hc : s.Clear) (hn : n ∈ s.names)
    (h : s.ioctlName (s.source n).number = some m) : m = n := by
  cases hsn : s.source n with
  | ioctl i =>
    rw [hsn] at h
    exact s.index_name n hn i m (Host.source_ioctl.mp hsn) h
  | adapter a =>
    rw [hsn, Host.Source.number, (hc.adapter_unknown n hn a hsn).1] at h
    cases h
  | order k =>
    rw [hsn, Host.Source.number, (hc.order_unknown n hn k hsn).1] at h
    cases h

theorem indextoname_of_clear (hc : s.Clear) (hn : n ∈ s.names) :
    s.indextoname (s.nametoindex n) = some n := by
  rw [Host.indextoname_listed hn]
  cases hm : s.ioctlName (s.source n).number with
  | some m =>
    rw [ioctlName_listed hc hn hm]
    rfl
  | none =>
    have hfind : (s.names.find? fun m => decide (s.nametoindex m = s.nametoindex n)) = some n := by
      have hsome : (s.names.find? fun m => decide (s.nametoindex m = s.nametoindex n)).isSome :=
        List.find?_isSome.mpr ⟨n, hn, by simp⟩
      obtain ⟨m, hm⟩ := Option.isSome_iff_exists.mp hsome
      have hmem := List.mem_of_find?_eq_some hm
      have heq : s.nametoindex m = s.nametoindex n := by simpa using List.find?_some hm
      rw [Host.nametoindex_listed hmem, Host.nametoindex_listed hn] at heq
      rw [hm, number_inj hc hmem hn heq]
    rw [hfind]
    rfl

/-- Nobody else has the number of a name that the ioctl does not answer for. -/
theorem unknown_of_roundTrips (hname : s.indextoname (s.nametoindex n) = some n)
    (hinj : ∀ m ∈ s.names, (s.source m).number = (s.source n).number → m = n) (hn : n ∈ s.names)
    (hsn : ∀ i, s.source n ≠ .ioctl i) : s.ioctlName (s.source n).number = none ∧
      ∀ m ∈ s.names, s.ioctlIndex m ≠ some (s.source n).number := by
  constructor
  · by_contra hne
    obtain ⟨m, hm⟩ := Option.ne_none_iff_exists'.mp hne
    rw [Host.indextoname_listed hn, hm] at hname
    cases hname
    exact hsn _ (Host.source_ioctl.mpr (s.name_index _ _ hm))
  · intro m hm hi
    have hsm := Host.source_ioctl.mpr hi
    have hmn := hinj m hm (by rw [hsm]; rfl)
    rw [hmn] at hsm
    exact hsn _ hsm

theorem clear_of_roundTrips (h : s.RoundTrips) : s.Clear := by
  obtain ⟨hname, hinj⟩ := (Host.roundTrips_iff _).mp h
  have hunknown := fun n hn hsn =>
    unknown_of_roundTrips (hname n hn) (fun m hm => hinj m hm n hn) hn hsn
  refine ⟨fun n hn m hm a b hsn hsm heq => hinj n hn m hm ?_, fun n hn m hm k a hsn hsm heq => ?_,
    fun n hn a hsn => ?_, fun n hn k hsn => ?_⟩
  · rw [hsn, hsm]
    exact heq
  · have hnm := hinj n hn m hm (by rw [hsn, hsm]; exact heq.symm)
    rw [hnm, hsm] at hsn
    cases hsn
  · have := hunknown n hn (by simp [hsn])
    rwa [hsn] at this
  · have := hunknown n hn (by simp [hsn])
    rwa [hsn] at this

/-- **Names and indexes.** They round-trip exactly if the numbers that the three sources give out are
clear of each other. -/
theorem ifname_round_trip_iff (s : System) : s.RoundTrips ↔ s.Clear :=
  ⟨clear_of_roundTrips, fun hc => (Host.roundTrips_iff _).mpr
    ⟨fun _ hn => indextoname_of_clear hc hn, fun _ hn _ hm => number_inj hc hn hm⟩⟩

end System

/-! ## A place taken for an adapter -/

/-- NT without the ioctls: the adapters, and the names that cosmo lists. -/
def nt (adapters : List Adapter) (names : List Name) : System where
  isLinux := false
  isWindows := true
  sysfs := none
  ifconf := some names
  ifindex _ := none
  ifname _ := none
  adapters := some adapters
  index_apart n _ m _ i hi := by cases hi
  name_index i n hi := by cases hi
  index_name n _ i m hi := by cases hi

/-- The friendly name `eth`. -/
def eth (index : Nat) (h : 0 < index) : Adapter := ⟨some [0x65, 0x74, 0x68], index, h⟩

theorem not_roundTrips {h : Host} {i : Nat} {n m : Name} (hne : n ≠ m)
    (ht : h.nameindex = some [(i, n), (i, m)]) : ¬ h.RoundTrips := fun hr =>
  hr.apart _ ht (i, n) (by simp) (i, m) (by simp) hne rfl

/-- The second name has no adapter, and its place is the index of the first one's; two beginnings of
one name have one adapter. -/
theorem ifname_confused :
    ¬ (nt [eth 2 (by decide)] [[0x65, 0x74, 0x68], [0x7a]]).RoundTrips ∧
      (nt [eth 2 (by decide)] [[0x65, 0x74, 0x68], [0x7a]]).indextoname 2 =
        some [0x65, 0x74, 0x68] ∧
      ¬ (nt [eth 9 (by decide)] [[0x65], [0x65, 0x74]]).RoundTrips := by
  have hplace : (nt [eth 2 (by decide)] [[0x65, 0x74, 0x68], [0x7a]]).nameindex =
      some [(2, [0x65, 0x74, 0x68]), (2, [0x7a])] := by decide +kernel
  have hinit : (nt [eth 9 (by decide)] [[0x65], [0x65, 0x74]]).nameindex =
      some [(9, [0x65]), (9, [0x65, 0x74])] := by decide +kernel
  exact ⟨not_roundTrips (by decide) hplace, by decide +kernel,
    not_roundTrips (by decide) hinit⟩

end ApeShim.Ifname
