import ApeShim.Vm.Reserve

/-!
`fork` on NT and the reservations (`shim/fork-nt.c`): a span is reserved in the child, and what the
parent has committed of it is committed there, copied, and given the parent's protection. To be read
from, pages are opened in the parent for a moment.
-/

namespace ApeShim.Vm
open Trace

/-! ## CopyReservation -/

structure Copied where
  ok : Bool
  parent : Memory
  child : Memory

/-- Pages that have to be opened to be copied. -/
def reprotect (prot : UInt32) : Bool := !canRead prot || isGuard prot

/-- Open them, if that is needed, with what they had. -/
def openPages (sys : Sys) (parent : Memory) (p n : Nat) (prot : UInt32) : Option (Memory × UInt32) :=
  if reprotect prot then protect sys.refuse parent p n pageReadwrite else some (parent, prot)

/-- Close them again; whether that was done. -/
def closePages (sys : Sys) (parent : Memory) (p n : Nat) (prot old : UInt32) : Memory × Bool :=
  if reprotect prot then
    match protect sys.refuse parent p n old with
    | some (parent, _) => (parent, true)
    | none => (parent, false)
  else (parent, true)

/-- What is done for a region that is committed in the parent. -/
def copyRun (sys : Sys) (parent child : Memory) (p n : Nat) (prot : UInt32) : Copied :=
  match commit sys.refuseEx child p n pageReadwrite with
  | none => ⟨false, parent, child⟩
  | some child =>
    match openPages sys parent p n prot with
    | none => ⟨false, parent, child⟩
    | some (opened, old) =>
      let (read, child, ok) := write sys.refuse opened child p n
      let (parent, closed) := closePages sys read p n prot old
      if ¬ (closed ∧ ok) then ⟨false, parent, child⟩
      else if prot = pageReadwrite then ⟨true, parent, child⟩
      else
        match protect sys.refuseEx child p n prot with
        | none => ⟨false, parent, child⟩
        | some (child, _) => ⟨true, parent, child⟩

/-- The loop of `CopyReservation`, with at most so many regions. -/
def copyLoop (sys : Sys) (end_ : Nat) : Nat → Memory → Memory → Nat → Copied
  | 0, parent, child, _ => ⟨true, parent, child⟩
  | fuel + 1, parent, child, p =>
    if p < end_ then
      match query sys.refuse parent p with
      | none => ⟨false, parent, child⟩
      | some mbi =>
        let re := min (mbi.baseAddress + mbi.regionSize) end_
        if mbi.state = .commit then
          let r := copyRun sys parent child p (re - p) mbi.protect
          if r.ok then copyLoop sys end_ fuel r.parent r.child re else r
        else copyLoop sys end_ fuel parent child re
    else ⟨true, parent, child⟩

/-- `CopyReservation` -/
def copyReservation (sys : Sys) (parent child : Memory) (addr size : Nat) : Copied :=
  match reserve sys.refuseEx child addr size with
  | none => ⟨false, parent, child⟩
  | some child => copyLoop sys (addr + size) size parent child addr

/-- The system may refuse to open pages, but pages that are there are given any other protection that
they can have. -/
def Sys.Restores (sys : Sys) : Prop :=
  ∀ a n prot, prot ≠ pageReadwrite → sys.refuse (.protect a n prot) = false

/-! ## One region -/

section Run
variable {sys : Sys} {parent child : Memory} {base p n : Nat} {prot : UInt32}

/-- From here up to there the pages are committed, with this protection. -/
def AllCommitted (m : Memory) (base p n : Nat) (prot : UInt32) : Prop :=
  ∀ q, first p ≤ q → q < behind p n → m.page q = .committed base prot

/-- The parent while the pages are open. -/
def opened (parent : Memory) (p n : Nat) (prot : UInt32) : Memory :=
  if reprotect prot then parent.change p n (Page.withProtect pageReadwrite) else parent

theorem first_lt_behind (hn : n ≠ 0) : first p < behind p n := by
  simp only [first, behind]
  omega

theorem reprotect_ne (h : reprotect prot = true) : prot ≠ pageReadwrite := by
  rintro rfl
  revert h
  decide

/-- What is not opened has no guard. -/
theorem guard_of_not_reprotect (h : ¬ reprotect prot = true) : isGuard prot = false := by
  simp only [reprotect, Bool.or_eq_true, not_or, Bool.not_eq_true] at h
  exact h.2

theorem openPages_spec {r : Memory × UInt32} (hn : n ≠ 0) (hrun : AllCommitted parent base p n prot)
    (h : openPages sys parent p n prot = some r) : r = (opened parent p n prot, prot) := by
  rw [openPages] at h
  rw [opened]
  split at h
  · rename_i hopen
    obtain ⟨m, old⟩ := r
    obtain ⟨-, rfl, rfl⟩ := protect_spec h
    rw [hrun (first p) (Nat.le_refl _) (first_lt_behind hn), if_pos hopen]
    rfl
  · rename_i hopen
    cases h
    rw [if_neg hopen]

theorem opened_byte : (opened parent p n prot).byte = parent.byte := by
  rw [opened]
  split <;> rfl

/-- The guard is off while the pages are read. -/
theorem opened_guard (hrun : AllCommitted parent base p n prot) {q : Nat} (hq : first p ≤ q)
    (hq' : q < behind p n) : isGuard ((opened parent p n prot).page q).protect = false := by
  rw [opened]
  split
  · rw [Memory.change_in hq hq']
    exact (by decide : isGuard pageReadwrite = false)
  · rename_i hopen
    rw [hrun q hq hq']
    exact guard_of_not_reprotect hopen

/-- Closing them brings back the parent. -/
theorem closePages_opened (hsys : sys.Restores) (hn : n ≠ 0) (hvalid : valid .priv prot = true)
    (hrun : AllCommitted parent base p n prot) :
    closePages sys (opened parent p n prot) p n prot prot = (parent, true) := by
  rw [closePages, opened]
  split
  · rename_i hopen
    have hopened (q) (hq : first p ≤ q) (hq' : q < behind p n) :
        (parent.change p n (Page.withProtect pageReadwrite)).page q =
          .committed base pageReadwrite := by
      rw [Memory.change_in hq hq', hrun q hq hq']
      rfl
    have hback : (parent.change p n (Page.withProtect pageReadwrite)).change p n
        (Page.withProtect prot) = parent := by
      have hpage : Stretch.change (Stretch.change parent.page (first p) (behind p n)
          (Page.withProtect pageReadwrite)) (first p) (behind p n) (Page.withProtect prot) =
          parent.page := by
        rw [Stretch.change_comp]
        refine Stretch.change_id fun q hq hq' => ?_
        rw [hrun q hq hq']
        rfl
      simp only [Memory.change, hpage]
    rw [protect_some hn (hsys p n prot (reprotect_ne hopen)) fun q hq hq' => ?_]
    · simp only [hback]
    · rw [hopened q hq hq', hopened (first p) (Nat.le_refl _) (first_lt_behind hn)]
      exact ⟨rfl, rfl, hvalid⟩
  · rfl

/-- The parent is as it was, however a region ends. -/
theorem copyRun_parent (hsys : sys.Restores) (hn : n ≠ 0) (hvalid : valid .priv prot = true)
    (hrun : AllCommitted parent base p n prot) :
    (copyRun sys parent child p n prot).parent = parent := by
  rw [copyRun]
  cases commit sys.refuseEx child p n pageReadwrite with
  | none => rfl
  | some child1 =>
    cases hopen : openPages sys parent p n prot with
    | none => rfl
    | some r =>
      have hread : (write sys.refuse (opened parent p n prot) child1 p n).1 =
          opened parent p n prot := write_fst fun q hq hq' => opened_guard hrun hq hq'
      simp only [openPages_spec hn hrun hopen, hread, closePages_opened hsys hn hvalid hrun]
      split
      · rfl
      · split
        · rfl
        · split <;> rfl

/-- A region that is copied: the child has committed it as the parent has, with its bytes. -/
theorem copyRun_child (hsys : sys.Restores) (hn : n ≠ 0) (hvalid : valid .priv prot = true)
    (hrun : AllCommitted parent base p n prot) (hp : p % 4096 = 0) (hsize : n % 4096 = 0)
    (h : (copyRun sys parent child p n prot).ok = true) :
    (copyRun sys parent child p n prot).child.page =
        Stretch.change child.page (first p) (behind p n) (Page.give prot) ∧
      ∀ x, (copyRun sys parent child p n prot).child.byte x =
        if p ≤ x ∧ x < p + n then parent.byte x else child.byte x := by
  rw [copyRun] at h ⊢
  cases hcommit : commit sys.refuseEx child p n pageReadwrite with
  | none => simp only [hcommit] at h; cases h
  | some child1 =>
    have hpage := (commit_page hcommit).2
    cases hopen : openPages sys parent p n prot with
    | none => simp only [hcommit, hopen] at h; cases h
    | some r =>
      have hread : (write sys.refuse (opened parent p n prot) child1 p n).1 =
          opened parent p n prot := write_fst fun q hq hq' => opened_guard hrun hq hq'
      simp only [hcommit, hopen, openPages_spec hn hrun hopen, hread,
        closePages_opened hsys hn hvalid hrun, true_and] at h ⊢
      cases hok : (write sys.refuse (opened parent p n prot) child1 p n).2.2 with
      | false => simp [hok] at h
      | true =>
        have hbyte (x : Nat) : (write sys.refuse (opened parent p n prot) child1 p n).2.1.byte x =
            if p ≤ x ∧ x < p + n then parent.byte x else child.byte x := by
          rw [write_done hok, opened_byte]
          refine ite_congr rfl (fun _ => rfl) fun hx => commit_byte hcommit fun hin => hx ?_
          simp only [first, behind] at hin
          omega
        have hpages : (write sys.refuse (opened parent p n prot) child1 p n).2.1.page =
            Stretch.change child.page (first p) (behind p n) (Page.give pageReadwrite) := by
          rw [write_done hok]
          exact hpage
        simp only [hok, not_true_eq_false, if_false] at h ⊢
        split at h
        · rename_i hprot
          rw [if_pos hprot]
          exact ⟨hprot ▸ hpages, hbyte⟩
        · rename_i hprot
          rw [if_neg hprot]
          cases hlast : protect sys.refuseEx (write sys.refuse (opened parent p n prot) child1 p n).2.1
              p n prot with
          | none => simp only [hlast] at h; cases h
          | some r =>
            obtain ⟨m, old⟩ := r
            obtain ⟨-, rfl, -⟩ := protect_spec hlast
            refine ⟨?_, hbyte⟩
            simp only [Memory.change, hpages]
            exact Stretch.change_comp _ _

end Run

/-! ## The loop -/

/-- Pages of the allocation at `base` that are only reserved, or committed with a protection that they
can have. -/
def Spanned (m : Memory) (base lo hi : Nat) : Prop :=
  ∀ q, lo ≤ q → q < hi → m.page q = .reserved base ∨
    ∃ prot, valid .priv prot = true ∧ m.page q = .committed base prot

/-- What the calls of a program leave of a span. -/
theorem Held.spanned {c : Libc} {m : Memory} {base size : Nat} {log : List Call}
    (h : Held c base size m log) : Spanned m base (first base) (behind base size) := by
  intro q hq hq'
  cases hf : log.find? (Call.covers q) with
  | none => exact .inl ((h.page q hq hq').trans (pageAfter_none hf))
  | some call =>
    refine .inr ⟨c.prot2nt call.prot, ?_, (h.page q hq hq').trans (pageAfter_some hf)⟩
    exact h.valid q hq hq' call (List.mem_of_find?_eq_some hf) (List.find?_some hf)

/-- The child has these pages as the parent has them, with the bytes of those that are committed. -/
structure SameSpan (parent child : Memory) (lo hi : Nat) : Prop where
  page : ∀ q, lo ≤ q → q < hi → child.page q = parent.page q
  byte : ∀ x, lo ≤ first x → first x < hi → (parent.page (first x)).state = .commit →
    child.byte x = parent.byte x

/-- Everywhere else the memory is as before. -/
structure SameOutside (m m' : Memory) (lo hi : Nat) : Prop where
  page : ∀ q, ¬ (lo ≤ q ∧ q < hi) → m'.page q = m.page q
  byte : ∀ x, ¬ (lo ≤ first x ∧ first x < hi) → m'.byte x = m.byte x

section Loop
variable {sys : Sys} {parent child m m' : Memory} {base lo mid hi : Nat}

theorem SameOutside.refl : SameOutside m m lo hi := ⟨fun _ _ => rfl, fun _ _ => rfl⟩

theorem SameSpan.refl : SameSpan parent child lo lo :=
  ⟨fun _ hq hq' => absurd hq' (Nat.not_lt.mpr hq), fun _ hx hx' => absurd hx' (Nat.not_lt.mpr hx)⟩

theorem SameOutside.append (h : SameOutside child m lo mid) (h' : SameOutside m m' mid hi)
    (hlo : lo ≤ mid) (hhi : mid ≤ hi) : SameOutside child m' lo hi where
  page q hq := (h'.page q (by omega)).trans (h.page q (by omega))
  byte x hx := (h'.byte x (by omega)).trans (h.byte x (by omega))

/-- What a region has copied stays while the later ones are. -/
theorem SameSpan.append (h : SameSpan parent m lo mid) (hout : SameOutside m m' mid hi)
    (h' : SameSpan parent m' mid hi) : SameSpan parent m' lo hi where
  page q hq hq' := by
    by_cases hmid : q < mid
    · rw [hout.page q (by omega), h.page q hq hmid]
    · exact h'.page q (by omega) hq'
  byte x hx hx' hstate := by
    by_cases hmid : first x < mid
    · rw [hout.byte x (by omega), h.byte x hx hmid hstate]
    · exact h'.byte x (by omega) hx' hstate

/-- A region that the parent has only reserved is there already. -/
theorem SameSpan.of_reserved (hparent : ∀ q, lo ≤ q → q < hi → parent.page q = .reserved base)
    (hchild : ∀ q, lo ≤ q → q < hi → child.page q = .reserved base) :
    SameSpan parent child lo hi where
  page q hq hq' := (hchild q hq hq').trans (hparent q hq hq').symm
  byte x hx hx' hstate := by
    rw [hparent _ hx hx'] at hstate
    cases hstate

/-- A region that is copied. -/
theorem copyRun_same {p n : Nat} {prot : UInt32} (hsys : sys.Restores) (hn : n ≠ 0)
    (hvalid : valid .priv prot = true) (hrun : AllCommitted parent base p n prot)
    (hp : p % 4096 = 0) (hsize : n % 4096 = 0)
    (hchild : ∀ q, first p ≤ q → q < behind p n → child.page q = .reserved base)
    (h : (copyRun sys parent child p n prot).ok = true) :
    SameSpan parent (copyRun sys parent child p n prot).child (first p) (behind p n) ∧
      SameOutside child (copyRun sys parent child p n prot).child (first p) (behind p n) := by
  obtain ⟨hpage, hbyte⟩ := copyRun_child hsys hn hvalid hrun hp hsize h
  refine ⟨⟨fun q hq hq' => ?_, fun x hx hx' _ => ?_⟩, ⟨fun q hq => ?_, fun x hx => ?_⟩⟩
  · rw [hpage, Stretch.change_in hq hq', hchild q hq hq', hrun q hq hq']
    rfl
  · simp only [first, behind] at hx hx'
    rw [hbyte, if_pos (by omega)]
  · rw [hpage, Stretch.change_out hq]
  · simp only [first, behind] at hx
    rw [hbyte, if_neg (by omega)]

/-- A region, clipped, ends behind where it begins, on a page. -/
theorem clip_spec {refuse : Request → Bool} {p end_ : Nat} {i : Info}
    (h : query refuse m p = some i) (hp : p % 4096 = 0) (hend : end_ % 4096 = 0) (hlt : p < end_) :
    p < min (i.baseAddress + i.regionSize) end_ ∧ min (i.baseAddress + i.regionSize) end_ ≤ end_ ∧
      min (i.baseAddress + i.regionSize) end_ % 4096 = 0 := by
  obtain ⟨hbase, ⟨k, hsize, hk, -⟩, -⟩ := query_spec h
  rw [hbase, hsize, first]
  omega

/-- **The loop**, region by region, from wherever it is. -/
theorem copyLoop_spec (hsys : sys.Restores) {end_ : Nat} (hend : end_ % 4096 = 0) (fuel : Nat)
    {p : Nat} (hp : p % 4096 = 0) (hpe : p ≤ end_) (hfuel : end_ ≤ p + fuel)
    (hparent : Spanned parent base (first p) (first end_))
    (hchild : ∀ q, first p ≤ q → q < first end_ → child.page q = .reserved base) :
    (copyLoop sys end_ fuel parent child p).parent = parent ∧
      ((copyLoop sys end_ fuel parent child p).ok = true →
        SameSpan parent (copyLoop sys end_ fuel parent child p).child (first p) (first end_) ∧
        SameOutside child (copyLoop sys end_ fuel parent child p).child (first p) (first end_)) := by
  induction fuel generalizing child p with
  | zero =>
    obtain rfl : p = end_ := by omega
    exact ⟨rfl, fun _ => ⟨.refl, .refl⟩⟩
  | succ fuel ih =>
    rw [copyLoop]
    split
    · rename_i hlt
      split
      · exact ⟨rfl, fun h => absurd h Bool.false_ne_true⟩
      · rename_i mbi hmbi
        obtain ⟨hre, hle, halign⟩ := clip_spec hmbi hp hend hlt
        have hclip (q) (hq : first p ≤ q)
            (hq' : q < behind p (min (mbi.baseAddress + mbi.regionSize) end_ - p)) :
            parent.page q = parent.page (first p) :=
          query_clip hmbi hre (Nat.min_le_left _ _) hq hq'
        simp only
        generalize min (mbi.baseAddress + mbi.regionSize) end_ = re at *
        have hbehind : behind p (re - p) = first re := by
          simp only [first, behind]
          omega
        have hmono : first p ≤ first re ∧ first re ≤ first end_ ∧ first p < first end_ := by
          simp only [first]
          omega
        have hrest : Spanned parent base (first re) (first end_) :=
          fun q hq hq' => hparent q (by omega) hq'
        obtain ⟨-, -, hstate, hprot, -⟩ := query_spec hmbi
        rcases hparent (first p) (Nat.le_refl _) hmono.2.2 with hfirst | ⟨prot, hvalid, hfirst⟩
        · -- only reserved: there is nothing to do
          rw [hfirst] at hstate
          have hnot : mbi.state ≠ .commit := fun h => by
            rw [hstate] at h
            cases h
          rw [if_neg hnot]
          obtain ⟨hpar, hok⟩ := ih halign hle (by omega) hrest fun q hq hq' =>
            hchild q (by omega) hq'
          have hhere : SameSpan parent child (first p) (first re) :=
            .of_reserved (fun q hq hq' => (hclip q hq (hbehind ▸ hq')).trans hfirst)
              fun q hq hq' => hchild q hq (by omega)
          refine ⟨hpar, fun h => ?_⟩
          obtain ⟨hsame, hout⟩ := hok h
          exact ⟨hhere.append hout hsame, .append .refl hout hmono.1 hmono.2.1⟩
        · rw [hfirst] at hstate hprot
          replace hstate : mbi.state = .commit := hstate
          replace hprot : mbi.protect = prot := hprot
          rw [if_pos hstate, hprot]
          have hrun : AllCommitted parent base p (re - p) prot :=
            fun q hq hq' => (hclip q hq hq').trans hfirst
          have hn : re - p ≠ 0 := by omega
          have hpar : (copyRun sys parent child p (re - p) prot).parent = parent :=
            copyRun_parent hsys hn hvalid hrun
          cases hok : (copyRun sys parent child p (re - p) prot).ok with
          | false =>
            rw [if_neg Bool.false_ne_true]
            exact ⟨hpar, fun h => absurd (hok.symm.trans h) Bool.false_ne_true⟩
          | true =>
            have hhere := copyRun_same hsys hn hvalid hrun hp (by omega)
              (fun q hq hq' => hchild q hq (by omega)) hok
            rw [hbehind] at hhere
            obtain ⟨hsame, hout⟩ := hhere
            rw [if_pos rfl, hpar]
            obtain ⟨hpar', hok'⟩ := ih halign hle (by omega) hrest fun q hq hq' =>
              (hout.page q (by omega)).trans (hchild q (by omega) hq')
            refine ⟨hpar', fun h => ?_⟩
            obtain ⟨hsame', hout'⟩ := hok' h
            exact ⟨hsame.append hout' hsame', hout.append hout' hmono.1 hmono.2.1⟩
    · obtain rfl : p = end_ := by omega
      exact ⟨rfl, fun _ => ⟨.refl, .refl⟩⟩

/-- **`CopyReservation`** of a span whose pages are reserved or committed. -/
theorem copyReservation_spec (hsys : sys.Restores) {size : Nat} (hbase : base % granularity = 0)
    (hsize : size % 4096 = 0) (hparent : Spanned parent base (first base) (behind base size)) :
    (copyReservation sys parent child base size).parent = parent ∧
      ((copyReservation sys parent child base size).ok = true →
        SameSpan parent (copyReservation sys parent child base size).child (first base)
          (behind base size) ∧
        SameOutside child (copyReservation sys parent child base size).child (first base)
          (behind base size)) := by
  have halign : base % 4096 = 0 := by
    simp only [granularity] at hbase
    omega
  have hbehind : behind base size = first (base + size) := by
    simp only [first, behind]
    omega
  rw [copyReservation]
  cases hreserve : reserve sys.refuseEx child base size with
  | none => exact ⟨rfl, fun h => absurd h Bool.false_ne_true⟩
  | some child1 =>
    have hpage := reserve_page hbase hreserve
    rw [hbehind] at hparent hpage ⊢
    have hchild : ∀ q, first base ≤ q → q < first (base + size) → child1.page q = .reserved base :=
      fun q hq hq' => by rw [hpage, Stretch.change_in hq hq']
    obtain ⟨hpar, hok⟩ :=
      copyLoop_spec hsys (by omega) size halign (by omega) (Nat.le_refl _) hparent hchild
    refine ⟨hpar, fun h => ?_⟩
    obtain ⟨hsame, hout⟩ := hok h
    refine ⟨hsame, ⟨fun q hq => ?_, fun x hx => ?_⟩⟩
    · rw [hout.page q hq, hpage, Stretch.change_out hq]
    · rw [hout.byte x hx, reserve_byte hreserve]

end Loop

/-! ## The reservations of a process -/

/-- `struct Map`, as far as is read to find the reservations. -/
structure Map where
  addr : Nat
  size : Nat
  /-- not a piece that `mprotect` has split off -/
  isalloc : Bool
  shared : Bool
  /-- `MAP_NOFORK`, of a map that is no file -/
  nofork : Bool
  /-- `MAP_APE_RESERVE` -/
  reserve : Bool

/-- The pieces that belong to an allocation: `allocsize`. -/
def allocSize (addr size : Nat) : List Map → Nat
  | [] => size
  | m2 :: rest =>
    if ¬ m2.isalloc ∧ addr + size = m2.addr then allocSize addr (size + m2.size) rest else size

/-- What `sys_fork_nt_parent` calls `CopyReservation` with, map by map. -/
def reservations (skipUntil : Nat) : List Map → List (Nat × Nat)
  | [] => []
  | m :: rest =>
    if m.addr < skipUntil then reservations skipUntil rest
    else if m.shared ∨ m.nofork then reservations skipUntil rest
    else if m.isalloc ∧ m.reserve then
      (m.addr, allocSize m.addr m.size rest) ::
        reservations (m.addr + allocSize m.addr m.size rest) rest
    else reservations skipUntil rest

/-- The pieces lie one behind the other, from here up to there. -/
def Tiles (a b : Nat) : List Map → Prop
  | [] => a = b
  | m :: rest => m.isalloc = false ∧ 0 < m.size ∧ m.addr = a ∧ Tiles (a + m.size) b rest

section Maps
variable {base size b : Nat} {pieces post : List Map}

theorem Tiles.le {a : Nat} (h : Tiles a b pieces) : a ≤ b := by
  induction pieces generalizing a with
  | nil => exact Nat.le_of_eq h
  | cons m rest ih => exact (Nat.le_add_right _ _).trans (ih h.2.2.2)

theorem allocSize_tiled (hpieces : Tiles (base + size) b pieces)
    (hpost : ∀ m ∈ post.head?, m.isalloc = true ∨ m.addr ≠ b) :
    base + allocSize base size (pieces ++ post) = b := by
  induction pieces generalizing size with
  | nil =>
    obtain rfl : base + size = b := hpieces
    cases post with
    | nil => rfl
    | cons m rest =>
      rw [List.nil_append, allocSize, if_neg]
      rintro ⟨halloc, haddr⟩
      rcases hpost m rfl with h | h
      · exact halloc h
      · exact h haddr.symm
  | cons m rest ih =>
    obtain ⟨halloc, -, haddr, hrest⟩ := hpieces
    rw [List.cons_append, allocSize, if_pos ⟨by simp [halloc], haddr.symm⟩]
    exact ih (by rwa [← Nat.add_assoc])

theorem reservations_skip {a : Nat} (hpieces : Tiles a b pieces) :
    reservations b (pieces ++ post) = reservations b post := by
  induction pieces generalizing a with
  | nil => rfl
  | cons m rest ih =>
    obtain ⟨-, hpos, rfl, hrest⟩ := hpieces
    rw [List.cons_append, reservations, if_pos (by have := hrest.le; omega), ih hrest]

/-- A reservation is copied once, in full, whatever pieces `mprotect` has split off it. -/
theorem reservations_tiled {skip : Nat} {m : Map} (hskip : skip ≤ m.addr)
    (hm : m.isalloc = true ∧ m.reserve = true ∧ m.shared = false ∧ m.nofork = false)
    (hpieces : Tiles (m.addr + m.size) b pieces)
    (hpost : ∀ m' ∈ post.head?, m'.isalloc = true ∨ m'.addr ≠ b) :
    reservations skip (m :: (pieces ++ post)) = (m.addr, b - m.addr) :: reservations b post := by
  have hsize := allocSize_tiled hpieces hpost
  rw [reservations, if_neg (Nat.not_lt.mpr hskip), if_neg (by simp [hm.2.2]), if_pos ⟨hm.1, hm.2.1⟩,
    hsize, reservations_skip hpieces, ← hsize, Nat.add_sub_cancel_left]

end Maps

/-! ## Every run, and a fork behind it -/

/-- `__prot2nt` of cosmo, not copy on write. -/
def prot2nt (prot : UInt32) : UInt32 :=
  if prot = 1 then pageReadonly
  else if prot = 2 ∨ prot = 3 then pageReadwrite
  else if prot = 4 then pageExecute
  else if prot = 5 then pageExecuteRead
  else if prot = 6 ∨ prot = 7 then pageExecuteReadwrite
  else pageNoaccess

/-- With the `mprotect` of cosmo. -/
def cosmo : Libc where
  prot2nt := prot2nt
  mprotect m a n prot :=
    if a % 4096 ≠ 0 then (m, false)
    else if n = 0 then (m, true)
    else
      match protect (fun _ => false) m a n (prot2nt prot) with
      | some (m', _) => (m', true)
      | none => (m, false)

theorem cosmo_documented : cosmo.Documented := by
  intro m a n prot m' h
  simp only [cosmo] at h
  split at h
  · cases h
  · rename_i halign
    refine ⟨not_not.mp halign, ?_⟩
    split at h
    · rename_i hzero
      cases h
      exact .inl ⟨hzero, rfl⟩
    · split at h
      · rename_i old hprotect
        cases h
        exact .inr ⟨old, hprotect⟩
      · cases h

def quiet : Sys := ⟨65536, true, fun _ => false, fun _ => false⟩

def unused : Memory := ⟨fun _ => ⟨.free, 0, .priv, 0⟩, fun _ => 0⟩

end ApeShim.Vm
