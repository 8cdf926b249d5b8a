import ApeShim.Lib.Lines
import ApeShim.Procfs.Buffer
import ApeShim.Procfs.Inode
import ApeShim.Procfs.Tree
import ApeShim.Vm.Pages

/-!
`/proc/self/maps` on NT (`gen_maps` of `shim/procfs/pid.c`): a walk over the address space with
`VirtualQuery`, one line for each region that is committed. Whoever looks an address up in it, to
name the function of a return address, has only these lines to go by.
-/

namespace ApeShim.Procfs.Maps
open Decimal Lines Vm

/-! ## The modules -/

/-- An element of `mods`; the path ends before its NUL. -/
structure Module where
  base : Nat
  path : Text
  deriving DecidableEq, Repr

/-- "C:/x" as "/C/x". -/
def driveForm : Text → Text
  | c :: ':' :: rest => '/' :: c :: rest
  | path => path

def pathChar (c : UInt16) : Char :=
  if c = 92 then '/' else if c < 128 then Char.ofNat c.toNat else '_'

/-- From what `K32GetModuleFileNameExW` wrote; `sizeof mods[i].path` is 512. -/
def modulePath (w : List UInt16) : Text :=
  (driveForm ((w.take 511).map pathChar)).takeWhile (· ≠ '\x00')

/-- At most 64, from the handles and names that the host gives. -/
def modules (host : List (Nat × List UInt16)) : List Module :=
  (host.take 64).map fun h => ⟨h.1, modulePath h.2⟩

/-! ## The walk -/

/-- `struct NtMemoryBasicInformation` -/
structure Region extends Info where
  allocationBase : Nat

/-- `VirtualQuery`, with the beginning of the allocation. -/
def virtualQuery (refuse : Request → Bool) (m : Memory) (a : Nat) : Option Region :=
  (query refuse m a).map fun i => { toInfo := i, allocationBase := (m.page (first a)).base }

def Region.next (r : Region) : Nat := r.baseAddress + r.regionSize

/-- 0x7fffffff0000 -/
def limit : Nat := userPages * 4096

/-- The regions that a line is printed for. -/
def regions (ask : Nat → Option Region) (addr : Nat) : List Region :=
  if addr < limit then
    match ask addr with
    | none => []
    | some mbi =>
      if mbi.next ≤ addr then []
      else if mbi.state ≠ .commit then regions ask mbi.next
      else mbi :: regions ask mbi.next
  else []
  termination_by limit - addr

/-! ## A line -/

def perms (r : Region) : Text :=
  let pr := r.protect &&& 0xff
  [if pr &&& 0xee ≠ 0 then 'r' else '-', if pr &&& 0xcc ≠ 0 then 'w' else '-',
    if pr &&& 0xf0 ≠ 0 then 'x' else '-', if r.type = .mapped then 's' else 'p']

/-- The module whose image the region is of. -/
def moduleOf (mods : List Module) (r : Region) : Option Module :=
  if r.type = .image then mods.find? fun x => x.base = r.allocationBase else none

/-- `off` -/
def offset (mods : List Module) (r : Region) : Nat :=
  match moduleOf mods r with
  | some x => (r.baseAddress + 2 ^ 64 - x.base) % 2 ^ 64
  | none => 0

/-- `name`, or an empty one. -/
def name (mods : List Module) (stackmark : Nat) (r : Region) : Text :=
  match moduleOf mods r with
  | some x => x.path
  | none => if r.baseAddress ≤ stackmark ∧ stackmark < r.next then "[stack]".toList else []

/-- `ino` -/
def inode (path : Text) : Nat :=
  (fnv (path.map fun c => c.toNat.toUInt8) 0xcbf29ce484222325 &&& 0xffffff).toNat

/-- The device and the inode. -/
def origin (path : Text) : Text × Nat :=
  if path.head? = some '/' then ("08:01".toList, inode path) else ("00:00".toList, 0)

/-- What is printed for a region, without the newline. -/
def line (mods : List Module) (stackmark : Nat) (r : Region) : Text :=
  let path := name mods stackmark r
  hexText 8 r.baseAddress ++ '-' :: (hexText 8 r.next ++ ' ' :: (perms r ++ ' ' ::
    (hexText 8 (offset mods r) ++ ' ' :: ((origin path).1 ++ ' ' ::
      (Nat.toDigits 10 (origin path).2 ++ ' ' :: path)))))

/-- `gen_maps`, one text for each `pfs_printf`. -/
def genMaps (refuse : Request → Bool) (m : Memory) (host : List (Nat × List UInt16))
    (stackmark : Nat) (self : Bool) : List Text :=
  if self then
    (regions (virtualQuery refuse m) 0).map fun r => line (modules host) stackmark r ++ ['\n']
  else []

/-! ## A reader -/

/-- A line of the file, as it is read back. -/
structure Mapping where
  start : Nat
  stop : Nat
  perms : Text
  offset : Nat
  dev : Text
  inode : Nat
  path : Text
  deriving DecidableEq, Repr

def readMapping (s : Text) : Option Mapping := do
  let (start, s) ← readHex s
  let s ← expect '-' s
  let (stop, s) ← readHex s
  let s ← expect ' ' s
  let perms := s.take 4
  let s ← expect ' ' (s.drop 4)
  let (offset, s) ← readHex s
  let s ← expect ' ' s
  let dev := s.take 5
  let s ← expect ' ' (s.drop 5)
  let (inode, s) ← readNat s
  let path ← expect ' ' s
  some ⟨start, stop, perms, offset, dev, inode, path⟩

def readMaps (s : Text) : Option (List Mapping) := (lines s).mapM readMapping

/-- What the line of a region is read back as. -/
def Region.mapping (mods : List Module) (stackmark : Nat) (r : Region) : Mapping :=
  let path := name mods stackmark r
  ⟨r.baseAddress, r.next, Maps.perms r, Maps.offset mods r, (origin path).1, (origin path).2, path⟩

/-! ## What the file is for -/

def Mapping.Covers (e : Mapping) (x : Nat) : Prop := e.start ≤ x ∧ x < e.stop

def canExecute (prot : UInt32) : Bool :=
  prot &&& (pageExecute ||| pageExecuteRead ||| pageExecuteReadwrite ||| pageExecuteWritecopy) ≠ 0

/-- The letters for a page. -/
def letters (g : Page) : Text :=
  [if canRead g.protect then 'r' else '-', if canWrite g.protect then 'w' else '-',
    if canExecute g.protect then 'x' else '-', if g.type = .mapped then 's' else 'p']

/-- The line with the address `x` tells what may be done there, and where in which file it is: in
that of the module whose image the page is of, if there is one. -/
structure Mapping.Tells (e : Mapping) (mods : List Module) (stackmark : Nat) (g : Page) (x : Nat) :
    Prop where
  perms : e.perms = letters g
  image : ∀ y, g.type = .image → mods.find? (fun y => y.base = g.base) = some y →
    e.path = y.path ∧ y.base + (e.offset + (x - e.start)) = x
  other : (g.type = .image → mods.find? (fun y => y.base = g.base) = none) →
    e.offset = 0 ∧ (e.path = "[stack]".toList ↔ e.Covers stackmark) ∧
      (e.path = [] ↔ ¬ e.Covers stackmark)
  origin : (e.dev, e.inode) = Maps.origin e.path

/-! ## Lines are read back -/

section Lines

variable {mods : List Module} {stackmark : Nat} {r : Region}

theorem perms_length : (perms r).length = 4 := rfl

theorem origin_length (path : Text) : (origin path).1.length = 5 := by
  rw [origin]
  split <;> rfl

theorem readMapping_line :
    readMapping (line mods stackmark r) = some (r.mapping mods stackmark) := by
  have hperms : ∀ t, (perms r ++ ' ' :: t).take 4 = perms r ∧
      (perms r ++ ' ' :: t).drop 4 = ' ' :: t :=
    fun t => ⟨List.take_left' perms_length, List.drop_left' perms_length⟩
  have hdev : ∀ path t, ((origin path).1 ++ ' ' :: t).take 5 = (origin path).1 ∧
      ((origin path).1 ++ ' ' :: t).drop 5 = ' ' :: t :=
    fun path t => ⟨List.take_left' (origin_length path), List.drop_left' (origin_length path)⟩
  have hnum : ∀ n t, readNat (Nat.toDigits 10 n ++ ' ' :: t) = some (n, ' ' :: t) :=
    fun n t => readNat_append n (ends_cons (by decide) t)
  rw [readMapping, line]
  simp only [readHex_hexText 8 _ (show isHex '-' = false by decide),
    readHex_hexText 8 _ (show isHex ' ' = false by decide), hperms, hdev, hnum, expect, if_true,
    Option.bind_eq_bind, Option.bind_some]
  rfl

theorem mem_driveForm {c : Char} {path : Text} (h : c ∈ driveForm path) : c = '/' ∨ c ∈ path := by
  unfold driveForm at h
  split at h
  · rcases List.mem_cons.mp h with hc | h
    · exact .inl hc
    · rcases List.mem_cons.mp h with hc | h
      · exact .inr (hc ▸ List.mem_cons_self)
      · exact .inr (List.mem_cons_of_mem _ (List.mem_cons_of_mem _ h))
  · exact .inr h

/-- No file's name has a newline on NT. -/
theorem modulePath_clean {w : List UInt16} (h : 10 ∉ w) : '\n' ∉ modulePath w := by
  intro hmem
  rcases mem_driveForm (List.takeWhile_subset _ hmem) with hc | hmem
  · cases hc
  · obtain ⟨c, hc, hchar⟩ := List.mem_map.mp hmem
    have hne : c ≠ 10 := fun hten => h (hten ▸ List.mem_of_mem_take hc)
    rw [pathChar] at hchar
    split at hchar
    · cases hchar
    · split at hchar
      · rename_i hlt
        have hlt' : c.toNat < 128 := UInt16.lt_iff_toNat_lt.mp hlt
        have hnat : (Char.ofNat c.toNat).toNat = c.toNat := by
          rw [Char.toNat_ofNat, if_pos (.inl (by omega))]
        rw [hchar] at hnat
        exact hne (UInt16.toNat_inj.mp hnat.symm)
      · cases hchar

theorem name_clean (h : ∀ x ∈ mods, '\n' ∉ x.path) : '\n' ∉ name mods stackmark r := by
  rw [name]
  split
  · rename_i x hx
    rw [moduleOf] at hx
    split at hx
    · exact h x (List.mem_of_find?_eq_some hx)
    · cases hx
  · split <;> decide

theorem line_clean (h : ∀ x ∈ mods, '\n' ∉ x.path) : '\n' ∉ line mods stackmark r := by
  have hhex : ∀ n, '\n' ∉ hexText 8 n := fun n hmem =>
    absurd (isHex_hexText 8 n _ hmem) (by decide)
  have hnum : ∀ n, '\n' ∉ Nat.toDigits 10 n := fun n hmem =>
    absurd (Nat.isDigit_of_mem_toDigits (by decide) (by decide) hmem) (by decide)
  have hperms : '\n' ∉ perms r := by
    simp only [perms, List.mem_cons, List.not_mem_nil, or_false, not_or]
    refine ⟨?_, ?_, ?_, ?_⟩ <;> split <;> decide
  have hdev : '\n' ∉ (origin (name mods stackmark r)).1 := by
    rw [origin]
    split
    · exact show '\n' ∉ "08:01".toList by decide
    · exact show '\n' ∉ "00:00".toList by decide
  have hname : '\n' ∉ name mods stackmark r := name_clean h
  simp [line, hhex, hnum, hperms, hdev, hname]

theorem mapM_readMapping (rs : List Region) :
    (rs.map fun r => line mods stackmark r).mapM readMapping =
      some (rs.map fun r => r.mapping mods stackmark) := by
  induction rs with
  | nil => rfl
  | cons r rs ih =>
      rw [List.map_cons, List.mapM_cons, readMapping_line, ih]
      rfl

/-- The file is read back as one mapping for each region. -/
theorem readMaps_lines (h : ∀ x ∈ mods, '\n' ∉ x.path) (rs : List Region) :
    readMaps (rs.map fun r => line mods stackmark r ++ ['\n']).flatten =
      some (rs.map fun r => r.mapping mods stackmark) := by
  have hlines : (rs.map fun r => line mods stackmark r ++ ['\n']).flatten =
      unlines (rs.map fun r => line mods stackmark r) := by
    rw [unlines, List.flatMap_map, List.flatMap_def]
  have hclean : ∀ l ∈ rs.map (fun r => line mods stackmark r), '\n' ∉ l := by
    intro l hl
    obtain ⟨r, -, rfl⟩ := List.mem_map.mp hl
    exact line_clean h
  rw [readMaps, hlines, lines_unlines hclean, mapM_readMapping]

end Lines

/-! ## The regions are the memory -/

section Walk

variable {refuse : Request → Bool} {m : Memory} {r : Region} {addr : Nat}

/-- A region has the attributes of each of its pages. -/
structure Region.Shows (m : Memory) (r : Region) : Prop where
  aligned : r.baseAddress % 4096 = 0
  pages : ∀ x, r.baseAddress ≤ x → x < r.next →
    m.page (first x) = ⟨r.state, r.protect, r.type, r.allocationBase⟩

theorem virtualQuery_spec (haddr : addr % 4096 = 0) (h : virtualQuery refuse m addr = some r) :
    r.Shows m ∧ r.baseAddress = addr ∧ addr < r.next ∧ r.next % 4096 = 0 := by
  obtain ⟨i, hi, rfl⟩ := Option.map_eq_some_iff.mp h
  obtain ⟨hbase, ⟨k, hsize, hk, hlike⟩, hstate, hprot, htype⟩ := query_spec hi
  have hfirst : first addr * 4096 = addr := Nat.div_mul_cancel (Nat.dvd_of_mod_eq_zero haddr)
  have hbase' : i.baseAddress = addr := hbase.trans hfirst
  have hpages : ∀ x, i.baseAddress ≤ x → x < i.baseAddress + i.regionSize →
      m.page (first x) = ⟨i.state, i.protect, i.type, (m.page (first addr)).base⟩ := by
    intro x hx hx'
    have hlo : first addr ≤ first x := Nat.div_le_div_right (hbase' ▸ hx)
    have hhi : first x < first addr + k := by
      rw [first, Nat.div_lt_iff_lt_mul (by decide)]
      omega
    rw [hlike _ hlo hhi, hstate, hprot, htype]
  refine ⟨⟨?_, hpages⟩, hbase', ?_, ?_⟩
  · rw [hbase']
    exact haddr
  · have hlt : addr < i.baseAddress + i.regionSize := by omega
    exact hlt
  · have hmod : (i.baseAddress + i.regionSize) % 4096 = 0 := by omega
    exact hmod

theorem virtualQuery_some (hrefuse : ∀ a, refuse (.query a) = false) (h : addr < limit) :
    ∃ r, virtualQuery refuse m addr = some r := by
  have hin : first addr < userPages := Nat.div_lt_of_lt_mul (by rwa [Nat.mul_comm])
  exact ⟨_, by rw [virtualQuery, query, if_pos ⟨hrefuse addr, hin⟩, Option.map_some]⟩

/-- What the walk from `addr` on finds. -/
structure Found (m : Memory) (addr : Nat) (rs : List Region) : Prop where
  shows : ∀ r ∈ rs, r.Shows m ∧ r.state = .commit ∧ addr ≤ r.baseAddress ∧ r.baseAddress < limit
  apart : rs.Pairwise fun r r' => r.next ≤ r'.baseAddress
  all : ∀ x, addr ≤ x → x < limit → (m.page (first x)).state = .commit →
    ∃ r ∈ rs, r.baseAddress ≤ x ∧ x < r.next

theorem regions_found (hrefuse : ∀ a, refuse (.query a) = false) (haddr : addr % 4096 = 0) :
    Found m addr (regions (virtualQuery refuse m) addr) := by
  induction hleft : limit - addr using Nat.strongRecOn generalizing addr with
  | ind n ih =>
      rw [regions]
      by_cases hin : addr < limit
      · obtain ⟨r, hr⟩ := virtualQuery_some (m := m) hrefuse hin
        obtain ⟨hshows, hbase, hnext, halign⟩ := virtualQuery_spec haddr hr
        obtain ⟨hrest, hapart, hall⟩ := ih (limit - r.next) (by omega) halign rfl
        have hlater : ∀ r' ∈ regions (virtualQuery refuse m) r.next, r'.Shows m ∧
            r'.state = .commit ∧ addr ≤ r'.baseAddress ∧ r'.baseAddress < limit := by
          intro r' hr'
          obtain ⟨hshows', hstate', hle, hlt⟩ := hrest r' hr'
          exact ⟨hshows', hstate', by omega, hlt⟩
        rw [if_pos hin, hr]
        simp only [if_neg (not_le.mpr hnext)]
        by_cases hstate : r.state = .commit
        · rw [if_neg (not_not_intro hstate)]
          refine ⟨?_, ?_, fun x hx hx' hcommit => ?_⟩
          · exact List.forall_mem_cons.mpr ⟨⟨hshows, hstate, by omega, by omega⟩, hlater⟩
          · exact List.pairwise_cons.mpr ⟨fun r' hr' => (hrest r' hr').2.2.1, hapart⟩
          · by_cases hhere : x < r.next
            · exact ⟨r, List.mem_cons_self, by omega, hhere⟩
            · obtain ⟨r', hr', hcover⟩ := hall x (not_lt.mp hhere) hx' hcommit
              exact ⟨r', List.mem_cons_of_mem _ hr', hcover⟩
        · rw [if_pos hstate]
          refine ⟨hlater, hapart, fun x hx hx' hcommit => hall x ?_ hx' hcommit⟩
          -- a page of this region is not committed
          by_contra hhere
          have hpage := hshows.pages x (by omega) (not_le.mp hhere)
          rw [hpage] at hcommit
          exact hstate hcommit
      · rw [if_neg hin]
        exact ⟨by simp, List.Pairwise.nil, fun x hx hx' => by omega⟩

/-! ## What a line tells -/

theorem perms_eq (r : Region) {base : Nat} :
    perms r = letters ⟨r.state, r.protect, r.type, base⟩ := by
  have hmask : ∀ bits : UInt32, bits &&& 0xff = bits →
      r.protect &&& 0xff &&& bits = r.protect &&& bits :=
    fun bits hbits => by rw [UInt32.and_assoc, UInt32.and_comm 0xff, hbits]
  have hread : r.protect &&& 0xff &&& 0xee = r.protect &&& 0xee := hmask _ (by decide)
  have hwrite : r.protect &&& 0xff &&& 0xcc = r.protect &&& 0xcc := hmask _ (by decide)
  have hexec : r.protect &&& 0xff &&& 0xf0 = r.protect &&& 0xf0 := hmask _ (by decide)
  simp only [perms, letters, canRead, canWrite, canExecute, hread, hwrite, hexec, decide_eq_true_eq]
  rfl

/-- An allocation begins at or before each of its pages. -/
def Allocated (m : Memory) : Prop := ∀ q, (m.page q).base ≤ q * 4096

theorem mapping_tells (hm : Allocated m) (hlimit : r.baseAddress < limit) (hshows : r.Shows m)
    (mods : List Module) (stackmark : Nat) {x : Nat} (hlo : r.baseAddress ≤ x) (hhi : x < r.next) :
    (r.mapping mods stackmark).Tells mods stackmark (m.page (first x)) x := by
  have hpage := hshows.pages x hlo hhi
  rw [hpage]
  refine ⟨perms_eq r, fun y htype hy => ?_, fun hnone => ?_, rfl⟩
  · have hmodule : moduleOf mods r = some y := by rw [moduleOf, if_pos htype, hy]
    have hbase : y.base = r.allocationBase := by simpa using List.find?_some hy
    have hbegin : r.allocationBase ≤ r.baseAddress := by
      have hfirst : first r.baseAddress * 4096 = r.baseAddress :=
        Nat.div_mul_cancel (Nat.dvd_of_mod_eq_zero hshows.aligned)
      have halloc := hm (first r.baseAddress)
      rw [hshows.pages _ (le_refl _) (hlo.trans_lt hhi), hfirst] at halloc
      exact halloc
    have hoff : offset mods r = r.baseAddress - y.base := by
      have hsmall : limit < 2 ^ 64 := by decide
      rw [offset, hmodule]
      dsimp only
      omega
    refine ⟨?_, ?_⟩
    · rw [Region.mapping, name, hmodule]
    · have hsum : y.base + (offset mods r + (x - r.baseAddress)) = x := by omega
      exact hsum
  · have hmodule : moduleOf mods r = none := by
      rw [moduleOf]
      split
      · rename_i htype
        exact hnone htype
      · rfl
    have hpath : (r.mapping mods stackmark).path =
        if r.baseAddress ≤ stackmark ∧ stackmark < r.next then "[stack]".toList else [] := by
      rw [Region.mapping, name, hmodule]
    have hcovers : (r.mapping mods stackmark).Covers stackmark ↔
        r.baseAddress ≤ stackmark ∧ stackmark < r.next := Iff.rfl
    rw [hcovers, hpath]
    refine ⟨by rw [Region.mapping, offset, hmodule], ?_⟩
    by_cases hstack : r.baseAddress ≤ stackmark ∧ stackmark < r.next
    · rw [if_pos hstack]
      exact ⟨iff_of_true rfl hstack, iff_of_false (by decide) (not_not_intro hstack)⟩
    · rw [if_neg hstack]
      exact ⟨iff_of_false (by decide) hstack, iff_of_true rfl hstack⟩

end Walk

theorem modules_clean {host : List (Nat × List UInt16)} (h : ∀ x ∈ host, 10 ∉ x.2) :
    ∀ x ∈ modules host, '\n' ∉ x.path := by
  intro x hx
  obtain ⟨y, hy, rfl⟩ := List.mem_map.mp hx
  exact modulePath_clean (h y (List.mem_of_mem_take hy))

/-- Two pages of a program's image, and nothing else. -/
def smallImage : Memory where
  page q :=
    if q = 16 ∨ q = 17 then ⟨.commit, pageExecuteRead, .image, 65536⟩ else ⟨.free, 0, .priv, 0⟩
  byte _ := 0

theorem smallImage_allocated : Allocated smallImage := by
  intro q
  rw [smallImage]
  dsimp only
  split
  · rename_i hq
    exact show 65536 ≤ q * 4096 by omega
  · exact Nat.zero_le _

/-- "C:\a.exe" -/
def smallHost : List (Nat × List UInt16) := [(65536, [67, 58, 92, 97, 46, 101, 120, 101])]

end ApeShim.Procfs.Maps
