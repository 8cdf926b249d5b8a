import ApeShim.Lib.CString
import Mathlib

/-!
The SMBIOS table that NT hands out (`shim/procfs/dmi.c`). A pointer into the table is the list of the
bytes from it to the table's end; a read past them has no result.
-/

namespace ApeShim.Smbios
open CString

/-! ## What is kept -/

/-- The strings of `struct pfs_dmi`. -/
inductive Slot
  | biosVendor | biosVersion | biosDate
  | sysVendor | productName | productVersion | productSku | productFamily
  | boardVendor | boardName | boardVersion | boardAssetTag
  | chassisVendor | chassisVersion
  deriving DecidableEq, Repr

/-- `sizeof cached.field` -/
def Slot.cap : Slot → Nat
  | .biosDate => 32
  | _ => 64

/-- A C string that its field has room for. -/
structure Field (cap : Nat) where
  text : List UInt8
  fits : text.length < cap
  clean : 0 ∉ text

theorem Slot.cap_pos (f : Slot) : 0 < f.cap := by cases f <;> decide

/-- Which byte of its structure numbers a string. -/
def Slot.place : Slot → Nat
  | .biosVendor | .sysVendor | .boardVendor | .chassisVendor => 4
  | .biosVersion | .productName | .boardName => 5
  | .productVersion | .boardVersion | .chassisVersion => 6
  | .biosDate | .boardAssetTag => 8
  | .productSku => 0x19
  | .productFamily => 0x1a

theorem clean_nil : (0 : UInt8) ∉ [] := List.not_mem_nil

def Field.empty {cap : Nat} (h : 0 < cap) : Field cap := ⟨[], h, clean_nil⟩

/-- `struct pfs_dmi` -/
structure Dmi where
  haveBios : Bool
  haveSys : Bool
  haveBoard : Bool
  haveChassis : Bool
  str : (f : Slot) → Field f.cap
  chassisType : Fin 128

/-- `memset(&cached, 0, sizeof cached)` -/
def Dmi.zero : Dmi where
  haveBios := false
  haveSys := false
  haveBoard := false
  haveChassis := false
  str f := .empty f.cap_pos
  chassisType := 0

/-! ## A string -/

/-- The string at a pointer, cut to the field, without trailing blanks. -/
def cut (cap : Nat) (s : List UInt8) : List UInt8 :=
  ((text s).take (cap - 1)).rdropWhile (· = 0x20)

/-- Where the loop of `take` finds the `idx`th string, when it is at the `i`th. -/
def find (idx i : Nat) (s : List UInt8) : Option (List UInt8) :=
  match s with
  | [] => none
  | c :: s => if c = 0 then none else if i = idx then some (c :: s) else find idx (i + 1) (next (c :: s))
  termination_by s.length
  decreasing_by
    simp only [next, List.length_drop, List.length_cons]
    omega

theorem cut_length {cap : Nat} (h : 0 < cap) (s : List UInt8) : (cut cap s).length < cap := by
  have hle :=
    (List.rdropWhile_prefix (fun c : UInt8 => decide (c = 0x20)) ((text s).take (cap - 1))).length_le
  rw [List.length_take] at hle
  rw [cut]
  omega

theorem cut_clean (cap : Nat) (s : List UInt8) : 0 ∉ cut cap s := fun h =>
  zero_notMem_text s (List.mem_of_mem_take ((List.rdropWhile_prefix _ _).mem h))

/-- `take`; an index of 0 names no string. -/
def take (f : Slot) (strs : List UInt8) (idx : UInt8) : Field f.cap :=
  if idx = 0 then .empty f.cap_pos
  else match find idx.toNat 1 strs with
    | none => .empty f.cap_pos
    | some s => ⟨cut f.cap s, cut_length f.cap_pos s, cut_clean f.cap s⟩

/-! ## The walk -/

/-- The strings that a structure sets. -/
def slots (type : UInt8) (len : Nat) : List Slot :=
  if type = 0 ∧ 9 ≤ len then [.biosVendor, .biosVersion, .biosDate]
  else if type = 1 ∧ 8 ≤ len then
    [.sysVendor, .productName, .productVersion] ++
      if 0x1a < len then [.productSku, .productFamily] else []
  else if type = 2 ∧ 8 ≤ len then
    [.boardVendor, .boardName, .boardVersion] ++ if 8 < len then [.boardAssetTag] else []
  else if type = 3 ∧ 7 ≤ len then [.chassisVendor, .chassisVersion]
  else []

/-- `S(field, p[place])` -/
def setStr (strs p : List UInt8) (d : Dmi) (f : Slot) : Option Dmi :=
  (p[f.place]?).map fun idx => { d with str := Function.update d.str f (take f strs idx) }

/-- What else a structure sets. -/
def setRest (type : UInt8) (len : Nat) (p : List UInt8) (d : Dmi) : Option Dmi :=
  if type = 0 ∧ 9 ≤ len then some { d with haveBios := true }
  else if type = 1 ∧ 8 ≤ len then some { d with haveSys := true }
  else if type = 2 ∧ 8 ≤ len then some { d with haveBoard := true }
  else if type = 3 ∧ 7 ≤ len then
    (p[5]?).map fun c =>
      { d with haveChassis := true, chassisType := ⟨c.toNat % 128, Nat.mod_lt _ (by decide)⟩ }
  else some d

/-- `q`: at two NULs, or where the table has no two bytes left. -/
def doubleNul : List UInt8 → List UInt8
  | a :: b :: s => if a = 0 ∧ b = 0 then a :: b :: s else doubleNul (b :: s)
  | s => s

theorem doubleNul_length (s : List UInt8) : (doubleNul s).length ≤ s.length := by
  induction s using doubleNul.induct with
  | case1 a b s h => rw [doubleNul, if_pos h]
  | case2 a b s h ih =>
    rw [doubleNul, if_neg h]
    exact ih.trans (Nat.le_succ _)
  | case3 s h =>
    rw [doubleNul]
    exact h

/-- A structure in the table: its type, its length, what stands behind its formatted area, and where
the next one begins. -/
def typeOf (p : List UInt8) : UInt8 := p.headD 0

def lenOf (p : List UInt8) : Nat := (p.tail.headD 0).toNat

def strsOf (p : List UInt8) : List UInt8 := p.drop (lenOf p)

def nextOf (p : List UInt8) : List UInt8 := (doubleNul (strsOf p)).drop 2

/-- `p + 4 <= end`, and neither `break` is taken. -/
def Goes (p : List UInt8) : Prop := 4 ≤ p.length ∧ 4 ≤ lenOf p ∧ typeOf p ≠ 127

instance (p : List UInt8) : Decidable (Goes p) := inferInstanceAs (Decidable (_ ∧ _ ∧ _))

theorem nextOf_length {p : List UInt8} (h : Goes p) : (nextOf p).length < p.length := by
  have hle := doubleNul_length (strsOf p)
  rw [strsOf, List.length_drop] at hle
  have := h.1
  have := h.2.1
  rw [nextOf, List.length_drop, strsOf]
  omega

/-- One structure. -/
def fill (p : List UInt8) (d : Dmi) : Option Dmi :=
  ((slots (typeOf p) (lenOf p)).foldlM (setStr (strsOf p) p) d).bind
    (setRest (typeOf p) (lenOf p) p)

/-- The loop of `pfs_dmi`. -/
def walk (p : List UInt8) (d : Dmi) : Option Dmi :=
  if _h : Goes p then (fill p d).bind (walk (nextOf p)) else some d
  termination_by p.length
  decreasing_by exact nextOf_length _h

/-- `pfs_dmi` on the table that `GetSystemFirmwareTable` returned; false is `none` within. -/
def pfsDmi (table : List UInt8) : Option (Option Dmi) :=
  if 8 < table.length then (walk (table.drop 8) .zero).map some else some none

/-! ## What it is for -/

/-- The structures that the walk comes to. -/
def structures (p : List UInt8) : List (List UInt8) :=
  if _h : Goes p then p :: structures (nextOf p) else []
  termination_by p.length
  decreasing_by exact nextOf_length _h

/-- What a structure has behind its formatted area, up to the next one. -/
def area (p : List UInt8) : List UInt8 := (strsOf p).take ((strsOf p).length - (nextOf p).length)

/-- One of the NUL-terminated strings there. -/
def StringOf (p t : List UInt8) : Prop := ∃ before after,
  area p = before ++ t ++ 0 :: after ∧ 0 ∉ t ∧ (before = [] ∨ before.getLast? = some 0)

/-- The structure that a string of the result is from: the last that sets it. -/
def source (table : List UInt8) (f : Slot) : Option (List UInt8) :=
  ((structures (table.drop 8)).filter fun p => f ∈ slots (typeOf p) (lenOf p)).getLast?

/-- The walk reads nothing outside the table, and what it extracts is a string of its structure, cut
to the field and without trailing blanks. -/
structure Sound (table : List UInt8) : Prop where
  inside : pfsDmi table ≠ none
  strings : ∀ d, pfsDmi table = some (some d) → ∀ f, (d.str f).text ≠ [] →
    ∃ p ∈ source table f, ∃ t, StringOf p t ∧ (d.str f).text = cut f.cap t

/-- The bytes that number strings are in the table, and no string that they number is cut off by its
end, unless what is taken of that one is blank, or is what a terminated one of the structure would
give. -/
structure Contained (table : List UInt8) : Prop where
  formatted : ∀ p ∈ structures (table.drop 8), ∀ f ∈ slots (typeOf p) (lenOf p), f.place < p.length
  ended : ∀ p ∈ structures (table.drop 8), ∀ f ∈ slots (typeOf p) (lenOf p), ∀ idx ∈ p[f.place]?,
    idx ≠ 0 → ∀ s ∈ find idx.toNat 1 (strsOf p), 0 ∉ s → cut f.cap s ≠ [] →
      ∃ t, StringOf p t ∧ cut f.cap s = cut f.cap t

/-! ## A string and its structure -/

section Strings

variable {s t p : List UInt8} {a b : UInt8}

theorem doubleNul_cons (h : a ≠ 0) : doubleNul (a :: b :: s) = doubleNul (b :: s) := by
  rw [doubleNul, if_neg fun hab => h hab.1]

theorem doubleNul_skip (h : b ≠ 0) : doubleNul (a :: b :: s) = doubleNul (b :: s) := by
  rw [doubleNul, if_neg fun hab => h hab.2]

/-- Two NULs cannot be found inside a string. -/
theorem doubleNul_string (h : 0 ∉ t) (s : List UInt8) :
    doubleNul (t ++ 0 :: s) = doubleNul (0 :: s) := by
  induction t with
  | nil => rfl
  | cons a t ih =>
    obtain ⟨ha, ht⟩ := List.ne_and_not_mem_of_not_mem_cons h
    rw [← ih ht]
    cases t <;> exact doubleNul_cons ha.symm

/-- Without a NUL there is no next structure. -/
theorem doubleNul_open (h : 0 ∉ s) : (doubleNul s).drop 2 = [] := by
  induction s using doubleNul.induct with
  | case1 a b s hab => exact absurd hab.1.symm (List.ne_and_not_mem_of_not_mem_cons h).1
  | case2 a b s hab ih =>
    rw [doubleNul, if_neg hab]
    exact ih (List.ne_and_not_mem_of_not_mem_cons h).2
  | case3 s hs =>
    rw [doubleNul]
    · match s, hs with
      | [], _ => rfl
      | [a], _ => rfl
      | a :: b :: s, hs => exact absurd rfl (hs a b s)
    · exact hs

/-- What the loop of `take` finds is a string, at the beginning or behind a NUL, and the search for
the end of the structure gets there. -/
theorem find_spec {idx i : Nat} {s r : List UInt8} (h : find idx i s = some r) :
    doubleNul s = doubleNul r ∧ r.head? ≠ some 0 ∧
      ∃ before, s = before ++ r ∧ (before = [] ∨ before.getLast? = some 0) := by
  induction i, s using find.induct idx with
  | case1 i =>
    rw [find] at h
    cases h
  | case2 i s =>
    rw [find, if_pos rfl] at h
    cases h
  | case3 c s hc =>
    rw [find, if_neg hc, if_pos rfl] at h
    cases h
    exact ⟨rfl, fun h0 => hc (Option.some.inj h0), [], rfl, Or.inl rfl⟩
  | case4 i c s hc hi ih =>
    rw [find, if_neg hc, if_neg hi] at h
    obtain ⟨hnul, hr, before, hbefore, hlast⟩ := ih h
    -- a later string stands behind the NUL of this one
    have h0 : 0 ∈ c :: s := by
      by_contra hno
      have hend : next (c :: s) = [] := by
        rw [next, text, List.takeWhile_eq_self_iff.mpr, List.drop_eq_nil_of_le (Nat.le_succ _)]
        intro x hx
        simpa using fun hx0 : x = 0 => hno (hx0 ▸ hx)
      rw [hend, find] at h
      cases h
    obtain ⟨v, hv⟩ := exists_text h0
    have hclean := zero_notMem_text (c :: s)
    have hnext : next (c :: s) = v := by
      conv_lhs => rw [hv]
      exact next_append hclean v
    rw [hnext] at hnul hbefore
    refine ⟨?_, hr, text (c :: s) ++ 0 :: before, ?_, Or.inr ?_⟩
    · rw [← hnul, hv, doubleNul_string hclean]
      cases v with
      | nil =>
        rw [hnext, find] at h
        cases h
      | cons x v =>
        have hx : x ≠ 0 := by
          rintro rfl
          rw [hnext, find, if_pos rfl] at h
          cases h
        exact doubleNul_skip hx
    · rw [List.append_assoc, List.cons_append, ← hbefore]
      exact hv
    · rcases hlast with rfl | hlast
      · simp
      · rw [List.getLast?_append_of_ne_nil _ (List.cons_ne_nil _ _), List.getLast?_cons, hlast]
        rfl

/-- A string that is found and has its NUL is one of its structure. -/
theorem stringOf_find {idx : Nat} (h : find idx 1 (strsOf p) = some s) (h0 : 0 ∈ s) :
    StringOf p (text s) := by
  obtain ⟨hnul, -, before, hbefore, hlast⟩ := find_spec h
  obtain ⟨v, hv⟩ := exists_text h0
  have hclean := zero_notMem_text s
  have hlen : (nextOf p).length ≤ v.length := by
    have hle := doubleNul_length (0 :: v)
    rw [nextOf, hnul, hv, doubleNul_string hclean, List.length_drop]
    rw [List.length_cons] at hle
    omega
  have hfront : strsOf p = (before ++ text s ++ [0]) ++ v := by
    rw [hbefore]
    conv_lhs => rw [hv]
    simp
  refine ⟨before, v.take (v.length - (nextOf p).length), ?_, hclean, hlast⟩
  have hcount : (before ++ text s ++ [0] ++ v).length - (nextOf p).length =
      (before ++ text s ++ [0]).length + (v.length - (nextOf p).length) := by
    rw [List.length_append]
    omega
  rw [area, hfront, hcount, List.take_length_add_append, List.append_assoc, List.singleton_append]

/-- A string that the end of the table cuts off is of the last structure. -/
theorem nextOf_open {idx : Nat} (h : find idx 1 (strsOf p) = some s) (h0 : 0 ∉ s) : nextOf p = [] := by
  rw [nextOf, (find_spec h).1, doubleNul_open h0]

theorem cut_text (cap : Nat) (s : List UInt8) : cut cap (text s) = cut cap s := by
  have htext : text (text s) = text s := List.takeWhile_idem ..
  rw [cut, htext, cut]

end Strings

/-! ## One structure -/

section Fill

variable {type : UInt8} {len : Nat} {strs p : List UInt8} {d d' : Dmi} {f : Slot}

/-- What `S` stores. -/
def taken (p : List UInt8) (f : Slot) : Field f.cap := take f (strsOf p) (p.getD f.place 0)

theorem setStr_some (h : setStr (strsOf p) p d f = some d') :
    f.place < p.length ∧ d'.str = Function.update d.str f (taken p f) := by
  obtain ⟨idx, hidx, rfl⟩ := Option.map_eq_some_iff.mp h
  have hlt := (List.getElem?_eq_some_iff.mp hidx).1
  refine ⟨hlt, ?_⟩
  rw [taken, List.getD_eq_getElem?_getD, hidx, Option.getD_some]

theorem setStr_none (h : setStr (strsOf p) p d f = none) : p.length ≤ f.place := by
  rw [setStr, Option.map_eq_none_iff, List.getElem?_eq_none_iff] at h
  exact h

/-- All strings of a structure are set if the bytes that number them are in the table. -/
theorem setStr_all (fs : List Slot) (d : Dmi) :
    (fs.foldlM (setStr (strsOf p) p) d).isSome = true ↔ ∀ f ∈ fs, f.place < p.length := by
  induction fs generalizing d with
  | nil => simp
  | cons f fs ih =>
    rw [List.foldlM_cons, List.forall_mem_cons]
    cases hset : setStr (strsOf p) p d f with
    | none =>
      have := setStr_none hset
      simp only [Option.bind_eq_bind, Option.bind_none, Option.isSome_none, Bool.false_eq_true,
        false_iff, not_and]
      intro hlt
      omega
    | some d' =>
      have := (setStr_some hset).1
      simp only [Option.bind_eq_bind, Option.bind_some, ih, this, true_and]

theorem setStr_str {fs : List Slot} (h : fs.foldlM (setStr (strsOf p) p) d = some d') (f : Slot) :
    d'.str f = if f ∈ fs then taken p f else d.str f := by
  induction fs generalizing d with
  | nil =>
    cases h
    rfl
  | cons g fs ih =>
    rw [List.foldlM_cons] at h
    obtain ⟨d1, hset, hrest⟩ := Option.bind_eq_some_iff.mp h
    rw [ih hrest, (setStr_some hset).2]
    by_cases hfs : f ∈ fs
    · rw [if_pos hfs, if_pos (List.mem_cons_of_mem g hfs)]
    · rw [if_neg hfs]
      by_cases hfg : f = g
      · subst hfg
        rw [Function.update_self, if_pos List.mem_cons_self]
      · rw [Function.update_of_ne hfg, if_neg fun hm => (List.mem_cons.mp hm).elim hfg hfs]

theorem setRest_str (h : setRest type len p d = some d') : d'.str = d.str := by
  unfold setRest at h
  split_ifs at h
  · cases h; rfl
  · cases h; rfl
  · cases h; rfl
  · obtain ⟨c, -, rfl⟩ := Option.map_eq_some_iff.mp h
    rfl
  · cases h; rfl

/-- The byte with the chassis's type stands before one that numbers a string. -/
theorem setRest_isSome (h : ∀ f ∈ slots type len, f.place < p.length) (d : Dmi) :
    (setRest type len p d).isSome = true := by
  unfold setRest
  split_ifs with h0 h1 h2 h3
  · rfl
  · rfl
  · rfl
  · have hlt : (6 : Nat) < p.length := by
      refine h .chassisVersion ?_
      rw [slots, if_neg h0, if_neg h1, if_neg h2, if_pos h3]
      simp
    rw [Option.isSome_map, List.getElem?_eq_getElem (by omega)]
    rfl
  · rfl

theorem fill_isSome (p : List UInt8) (d : Dmi) :
    (fill p d).isSome = true ↔ ∀ f ∈ slots (typeOf p) (lenOf p), f.place < p.length := by
  rw [fill, ← setStr_all _ d]
  cases hfold : (slots (typeOf p) (lenOf p)).foldlM (setStr (strsOf p) p) d with
  | none => simp
  | some d1 =>
    have hall := (setStr_all _ d).mp (by rw [hfold]; rfl)
    simpa using setRest_isSome hall d1

theorem fill_str (h : fill p d = some d') (f : Slot) :
    d'.str f = if f ∈ slots (typeOf p) (lenOf p) then taken p f else d.str f := by
  obtain ⟨d1, hfold, hrest⟩ := Option.bind_eq_some_iff.mp h
  rw [setRest_str hrest, setStr_str hfold]

end Fill

/-! ## The walk, structure by structure -/

section Walk

variable {p : List UInt8} {d d' : Dmi}

theorem walk_isSome (p : List UInt8) (d : Dmi) : (walk p d).isSome = true ↔
    ∀ q ∈ structures p, ∀ f ∈ slots (typeOf q) (lenOf q), f.place < q.length := by
  induction p, d using walk.induct with
  | case1 p d h ih =>
    rw [walk, structures, dif_pos h, dif_pos h, List.forall_mem_cons, ← fill_isSome p d]
    cases hfill : fill p d with
    | none => simp
    | some d1 => simpa using ih d1
  | case2 p d h =>
    rw [walk, structures, dif_neg h, dif_neg h]
    simp

/-- A string of the result is from the last structure that sets it. -/
theorem walk_str (h : walk p d = some d') (f : Slot) :
    d'.str f = ((structures p).filter fun q => f ∈ slots (typeOf q) (lenOf q)).getLast?.elim
      (d.str f) fun q => taken q f := by
  induction p, d using walk.induct with
  | case1 p d hgo ih =>
    rw [walk, dif_pos hgo] at h
    obtain ⟨d1, hfill, hrest⟩ := Option.bind_eq_some_iff.mp h
    have hcons : structures p = p :: structures (nextOf p) := by rw [structures, dif_pos hgo]
    rw [ih d1 hrest, hcons, fill_str hfill]
    by_cases hf : f ∈ slots (typeOf p) (lenOf p)
    · rw [List.filter_cons_of_pos (by simpa using hf), List.getLast?_cons, if_pos hf]
      cases ((structures (nextOf p)).filter fun q => f ∈ slots (typeOf q) (lenOf q)).getLast? <;> rfl
    · rw [List.filter_cons_of_neg (by simpa using hf), if_neg hf]
  | case2 p d hgo =>
    rw [walk, dif_neg hgo] at h
    cases h
    rw [structures, dif_neg hgo]
    rfl

theorem structures_nil : structures [] = [] := by
  rw [structures, dif_neg]
  exact fun h => absurd h.1 (by decide)

/-- Nothing comes behind a structure that has no next one. -/
theorem getLast_of_nextOf {l q : List UInt8} {sets : List UInt8 → Bool} (hq : q ∈ structures l)
    (hend : nextOf q = []) (hsets : sets q = true) :
    ((structures l).filter sets).getLast? = some q := by
  induction l using structures.induct with
  | case1 l hgo ih =>
    have hcons : structures l = l :: structures (nextOf l) := by rw [structures, dif_pos hgo]
    rw [hcons] at hq ⊢
    rcases List.mem_cons.mp hq with rfl | hq
    · rw [hend, structures_nil, List.filter_cons_of_pos hsets]
      rfl
    · rw [List.filter_cons]
      split
      · rw [List.getLast?_cons, ih hq]
        rfl
      · exact ih hq
  | case2 l hgo =>
    rw [structures, dif_neg hgo] at hq
    cases hq

theorem pfsDmi_inside (table : List UInt8) : pfsDmi table ≠ none ↔
    ∀ q ∈ structures (table.drop 8), ∀ f ∈ slots (typeOf q) (lenOf q), f.place < q.length := by
  rw [← walk_isSome _ .zero, pfsDmi]
  split
  · simp [Option.isSome_iff_ne_none]
  · rename_i hlen
    rw [List.drop_eq_nil_of_le (Nat.not_lt.mp hlen), walk, dif_neg fun h => absurd h.1 (by decide)]
    simp

theorem pfsDmi_str {table : List UInt8} (h : pfsDmi table = some (some d)) (f : Slot) :
    d.str f = (source table f).elim (.empty f.cap_pos) fun q => taken q f := by
  rw [pfsDmi] at h
  split at h
  · obtain ⟨d1, hwalk, hd⟩ := Option.map_eq_some_iff.mp h
    cases hd
    exact walk_str hwalk f
  · cases h

theorem mem_source {table q : List UInt8} {f : Slot} (h : source table f = some q) :
    q ∈ structures (table.drop 8) ∧ f ∈ slots (typeOf q) (lenOf q) := by
  simpa using List.mem_filter.mp (List.mem_of_getLast? h)

/-- What is stored is what the loop finds, cut. -/
theorem taken_text {q : List UInt8} {f : Slot} (h : (taken q f).text ≠ []) :
    ∃ idx ∈ q[f.place]?, idx ≠ 0 ∧ ∃ s ∈ find idx.toNat 1 (strsOf q),
      (taken q f).text = cut f.cap s := by
  rw [taken, List.getD_eq_getElem?_getD] at h ⊢
  cases hidx : q[f.place]? with
  | none =>
    rw [hidx] at h
    exact absurd rfl h
  | some idx =>
    rw [hidx, Option.getD_some, take] at h
    refine ⟨idx, rfl, ?_⟩
    rw [Option.getD_some, take]
    split_ifs at h ⊢ with h0
    · exact absurd rfl h
    · refine ⟨h0, ?_⟩
      split at h
      · exact absurd rfl h
      · rename_i s hfind
        exact ⟨s, hfind, rfl⟩

theorem taken_eq {q s : List UInt8} {f : Slot} {idx : UInt8} (hidx : q[f.place]? = some idx)
    (h0 : idx ≠ 0) (hs : find idx.toNat 1 (strsOf q) = some s) : (taken q f).text = cut f.cap s := by
  rw [taken, List.getD_eq_getElem?_getD, hidx, Option.getD_some, take, if_neg h0]
  split
  · rename_i hnone
    rw [hs] at hnone
    cases hnone
  · rename_i s' hsome
    rw [hs] at hsome
    cases hsome
    rfl

/-- A string that the table's end cuts off is the last that is extracted of its kind. -/
theorem Sound.ended {table q s : List UInt8} {f : Slot} {idx : UInt8} (h : Sound table)
    (hq : q ∈ structures (table.drop 8)) (hf : f ∈ slots (typeOf q) (lenOf q))
    (hidx : q[f.place]? = some idx) (h0 : idx ≠ 0) (hs : find idx.toNat 1 (strsOf q) = some s)
    (hopen : 0 ∉ s) (hne : cut f.cap s ≠ []) : ∃ t, StringOf q t ∧ cut f.cap s = cut f.cap t := by
  have hsource : source table f = some q :=
    getLast_of_nextOf hq (nextOf_open hs hopen) (by simpa using hf)
  obtain ⟨r, hr⟩ := Option.ne_none_iff_exists'.mp h.inside
  cases r with
  | none =>
    -- a table this short has no structure
    rw [pfsDmi] at hr
    split at hr
    · obtain ⟨d, -, hd⟩ := Option.map_eq_some_iff.mp hr
      cases hd
    · rename_i hlen
      rw [List.drop_eq_nil_of_le (Nat.not_lt.mp hlen), structures_nil] at hq
      cases hq
  | some d =>
    have htext : (d.str f).text = cut f.cap s := by
      rw [pfsDmi_str hr f, hsource]
      exact taken_eq hidx h0 hs
    obtain ⟨q', hq', t, ht, heq⟩ := h.strings d hr f (by rw [htext]; exact hne)
    rw [hsource] at hq'
    cases hq'
    exact ⟨t, ht, htext ▸ heq⟩

end Walk

/-- **The walk is safe exactly on these tables.** -/
theorem dmi_sound_iff (table : List UInt8) : Sound table ↔ Contained table := by
  constructor
  · intro h
    exact ⟨(pfsDmi_inside table).mp h.inside,
      fun q hq f hf idx hidx h0 s hs hopen hne => h.ended hq hf hidx h0 hs hopen hne⟩
  · intro h
    refine ⟨(pfsDmi_inside table).mpr h.formatted, fun d hd f hne => ?_⟩
    rw [pfsDmi_str hd f] at hne ⊢
    cases hsource : source table f with
    | none =>
      rw [hsource] at hne
      exact absurd rfl hne
    | some q =>
      rw [hsource] at hne
      obtain ⟨hq, hf⟩ := mem_source hsource
      obtain ⟨idx, hidx, h0, s, hs, htext⟩ := taken_text hne
      refine ⟨q, rfl, ?_⟩
      by_cases hnul : 0 ∈ s
      · refine ⟨text s, stringOf_find hs hnul, ?_⟩
        rw [cut_text]
        exact htext
      · obtain ⟨t, ht, heq⟩ := h.ended q hq f hf idx hidx h0 s hs hnul (htext ▸ hne)
        exact ⟨t, ht, htext.trans heq⟩

/-- The BIOS structure says nine bytes, and the table has four of them. -/
def shortTable : List UInt8 := [0, 0, 0, 0, 0, 0, 0, 0, 0, 9, 0, 0]

/-- Its first string has no NUL before the table ends. -/
def openTable : List UInt8 := [0, 0, 0, 0, 0, 0, 0, 0, 0, 9, 0, 0, 1, 0, 0, 0, 0, 0x41]

theorem dmi_unsound : pfsDmi shortTable = none ∧ ¬ Sound shortTable ∧ ¬ Sound openTable := by
  have hshort : pfsDmi shortTable = none := by
    by_contra h
    have hin : [0, 9, 0, 0] ∈ structures (shortTable.drop 8) := by
      rw [structures, dif_pos (by decide)]
      exact List.mem_cons_self
    exact absurd ((pfsDmi_inside _).mp h _ hin .biosVendor (by decide)) (by decide)
  refine ⟨hshort, fun h => h.inside hshort, fun h => ?_⟩
  have hin : openTable.drop 8 ∈ structures (openTable.drop 8) := by
    rw [structures, dif_pos (by decide)]
    exact List.mem_cons_self
  have hfind : find (1 : UInt8).toNat 1 (strsOf (openTable.drop 8)) = some [0x41] := by
    change find 1 1 [0x41] = some [0x41]
    rw [find, if_neg (by decide), if_pos rfl]
  have hslot : Slot.biosVendor ∈ slots (typeOf (openTable.drop 8)) (lenOf (openTable.drop 8)) := by
    decide
  obtain ⟨t, ⟨before, after, harea, -⟩, -⟩ :=
    h.ended hin hslot rfl (by decide) hfind (by decide) (by decide)
  have h0 : (0 : UInt8) ∈ before ++ t ++ 0 :: after := by simp
  rw [← harea] at h0
  exact absurd h0 (by decide)

end ApeShim.Smbios
