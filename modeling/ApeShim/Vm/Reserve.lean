import ApeShim.Lib.Machine
import ApeShim.Vm.Pages

/-!
Reserve and commit on NT (`shim/mmap.c`): a private anonymous mapping without access only reserves its
span, and `mprotect` commits what it is given access to. cosmo's own `mprotect` is a parameter.
-/

namespace ApeShim.Vm
open Trace

/-! ## mmap -/

/-- cosmo's run-time constants: 0 where the host has no such bit. -/
structure HostBits where
  anonymous : UInt32
  fixedNoreplace : UInt32
  hugetlb : UInt32
  noreserve : UInt32
  populate : UInt32
  locked : UInt32

/-- `kMaps`: the Linux bit, the host's, and whether it may be dropped. -/
def kMaps (c : HostBits) : List (UInt32 × UInt32 × Bool) :=
  [(32, c.anonymous, false), (1048576, c.fixedNoreplace, false), (262144, c.hugetlb, false),
    (16384, c.noreserve, true), (32768, c.populate, true), (8192, c.locked, true)]

inductive Errno
  | EINVAL | ENOMEM | EOPNOTSUPP
  deriving DecidableEq, Repr

/-- The loop over `kMaps`: the bits that are left, and the host's. -/
def hostFlags : List (UInt32 × UInt32 × Bool) → UInt32 → UInt32 → Except Errno (UInt32 × UInt32)
  | [], lin, host => .ok (lin, host)
  | (bit, h, droppable) :: rest, lin, host =>
    if lin &&& bit = 0 then hostFlags rest lin host
    else if h ≠ 0 then hostFlags rest (lin &&& ~~~bit) (host ||| h)
    else if droppable then hostFlags rest (lin &&& ~~~bit) host
    else .error .EOPNOTSUPP

/-- What the system answers in the course of one call. -/
structure Sys where
  /-- where there is room for an allocation -/
  place : Nat
  /-- whether `__maps_track` has room -/
  track : Bool
  refuse : Request → Bool
  /-- of what is asked for another process -/
  refuseEx : Request → Bool

/-- `VirtualAlloc` with `MEM_RESERVE` and no address. -/
def reserveAnywhere (sys : Sys) (m : Memory) (len : Nat) : Option Memory :=
  if sys.place % granularity = 0 then reserve sys.refuse m sys.place len else none

/-- `reserve_nt` -/
def reserveNt (sys : Sys) (m : Memory) (len : Nat) : Memory × Except Errno Nat :=
  match reserveAnywhere sys m len with
  | none => (m, .error .ENOMEM)
  | some m' => if sys.track then (m', .ok sys.place) else (release m' sys.place, .error .ENOMEM)

inductive Mapped
  | error (e : Errno)
  /-- the reservation path -/
  | reserved (base : Nat)
  /-- cosmo's `mmap` is called, with these flags -/
  | host (flags : UInt32)
  deriving DecidableEq

/-- `__ape_shim_mmap` on NT -/
def mmap (c : HostBits) (sys : Sys) (m : Memory) (len : Nat) (prot lin : UInt32) : Memory × Mapped :=
  match hostFlags (kMaps c) (lin &&& ~~~19 &&& ~~~131072) (lin &&& 19) with
  | .error e => (m, .error e)
  | .ok (left, host) =>
    if left ≠ 0 then (m, .error .EINVAL)
    else if prot = 0 ∧ len ≠ 0 ∧ host &&& 16 = 0 ∧ host &&& 2 ≠ 0 ∧ host &&& c.anonymous ≠ 0 then
      match reserveNt sys m len with
      | (m', .ok base) => (m', .reserved base)
      | (m', .error e) => (m', .error e)
    else (m, .host host)

/-! ## mprotect -/

/-- What the shim has of cosmo. -/
structure Libc where
  /-- `__prot2nt`, not copy on write -/
  prot2nt : UInt32 → UInt32
  /-- `mprotect`, and whether it succeeded -/
  mprotect : Memory → Nat → Nat → UInt32 → Memory × Bool

/-- `mprotect` succeeds on whole pages only, and by `VirtualProtect`. -/
def Libc.Documented (c : Libc) : Prop :=
  ∀ m a n prot m', c.mprotect m a n prot = (m', true) →
    a % 4096 = 0 ∧ (n = 0 ∧ m' = m ∨
      ∃ old, protect (fun _ => false) m a n (c.prot2nt prot) = some (m', old))

/-- `commit_nt`, with at most so many regions; whether it returned 0. -/
def commitLoop (sys : Sys) (page : UInt32) (end_ : Nat) : Nat → Memory → Nat → Memory × Bool
  | 0, m, _ => (m, true)
  | fuel + 1, m, p =>
    if p < end_ then
      match query sys.refuse m p with
      | none => (m, true)
      | some mbi =>
        let re := min (mbi.baseAddress + mbi.regionSize) end_
        if mbi.state = .reserve ∧ mbi.type = .priv then
          match commit sys.refuse m p (re - p) page with
          | none => (m, false)
          | some m' => commitLoop sys page end_ fuel m' re
        else commitLoop sys page end_ fuel m re
    else (m, true)

def commitNt (c : Libc) (sys : Sys) (m : Memory) (addr len : Nat) (prot : UInt32) : Memory × Bool :=
  commitLoop sys (c.prot2nt prot) (addr + len) len m addr

/-- `__ape_shim_mprotect` -/
def mprotect (c : Libc) (sys : Sys) (m : Memory) (addr len : Nat) (prot : UInt32) : Memory × Bool :=
  if prot ≠ 0 ∧ len ≠ 0 ∧ addr % 4096 = 0 then
    match commitNt c sys m addr len prot with
    | (m', false) => (m', false)
    | (m', true) => c.mprotect m' addr len prot
  else c.mprotect m addr len prot

/-! ## The program and its span -/

/-- A call of `mprotect` that succeeded. -/
structure Call where
  addr : Nat
  len : Nat
  prot : UInt32
  deriving DecidableEq

/-- The call is about the page. -/
def Call.covers (q : Nat) (c : Call) : Bool := first c.addr ≤ q ∧ q < behind c.addr c.len

inductive Event
  /-- the answers may be others at every call -/
  | mprotect (sys : Sys) (addr len : Nat) (prot : UInt32)
  /-- the program writes what it likes -/
  | store (bytes : Nat → UInt8)

/-- What is done inside the span, where it succeeds. -/
def step (c : Libc) (base size : Nat) (m : Memory) : Event → Option (Memory × List Call)
  | .mprotect sys addr len prot =>
    if base ≤ addr ∧ addr + len ≤ base + size then
      match mprotect c sys m addr len prot with
      | (m', true) => some (m', [⟨addr, len, prot⟩])
      | (_, false) => none
    else none
  | .store bytes => some ({ m with byte := bytes }, [])

def machine (c : Libc) (base size : Nat) (m : Memory) : Machine Memory Event Call :=
  ⟨m, step c base size⟩

/-! ## What the calls leave -/

/-- The page of a span at `base` after these calls, the last of them first. -/
def pageAfter (c : Libc) (base q : Nat) (log : List Call) : Page :=
  ((log.find? (Call.covers q)).map fun call => .committed base (c.prot2nt call.prot)).getD
    (.reserved base)

section Mprotect
variable {c : Libc} {sys : Sys} {m m' : Memory} {addr len q : Nat} {prot new : UInt32}

theorem covers_iff {call : Call} :
    call.covers q = true ↔ first call.addr ≤ q ∧ q < behind call.addr call.len := by
  rw [Call.covers, decide_eq_true_eq]

/-- A region goes on behind the address that was asked about. -/
theorem query_next {refuse : Request → Bool} {p : Nat} {i : Info} (h : query refuse m p = some i) :
    p < i.baseAddress + i.regionSize := by
  obtain ⟨hbase, ⟨k, hsize, hk, -⟩, -⟩ := query_spec h
  rw [hbase, hsize, first]
  omega

/-- A clip of a region is of pages like the first. -/
theorem query_clip {refuse : Request → Bool} {p re : Nat} {i : Info} (h : query refuse m p = some i)
    (hp : p < re) (hre : re ≤ i.baseAddress + i.regionSize) (hq : first p ≤ q)
    (hq' : q < behind p (re - p)) : m.page q = m.page (first p) := by
  obtain ⟨hbase, ⟨k, hsize, -, hsame⟩, -⟩ := query_spec h
  refine hsame q hq ?_
  rw [hbase, hsize] at hre
  simp only [first, behind] at *
  omega

/-- The loop leaves a page as it is, or commits it, if it was only reserved and lies in its range. -/
theorem commitLoop_page {end_ : Nat} (fuel p : Nat) :
    (commitLoop sys new end_ fuel m p).1.page q = m.page q ∨
      (first p ≤ q ∧ q * 4096 < end_) ∧ (m.page q).state = .reserve ∧
        (commitLoop sys new end_ fuel m p).1.page q =
          (m.page q).give new := by
  induction fuel generalizing m p with
  | zero => exact .inl rfl
  | succ fuel ih =>
    rw [commitLoop]
    split
    · rename_i hp
      split
      · exact .inl rfl
      · rename_i mbi hmbi
        have hnext := query_next hmbi
        have hpre : p < min (mbi.baseAddress + mbi.regionSize) end_ := by omega
        have hfirst : first p ≤ first (min (mbi.baseAddress + mbi.regionSize) end_) := by
          simp only [first]
          omega
        simp only
        split
        · rename_i hstate
          split
          · exact .inl rfl
          · rename_i m' hcommit
            have hpage := (commit_page hcommit).2
            by_cases hq : first p ≤ q ∧
                q < behind p (min (mbi.baseAddress + mbi.regionSize) end_ - p)
            · -- the page was of the region, and no later one commits it again
              have hsame := query_clip hmbi hpre (Nat.min_le_left _ _) hq.1 hq.2
              have hm' : m'.page q = (m.page q).give new := by
                rw [hpage, Stretch.change_in hq.1 hq.2]
              have hreserve : (m.page q).state = .reserve := by
                rw [hsame, ← (query_spec hmbi).2.2.1]
                exact hstate.1
              have hend : q * 4096 < end_ := by
                have := hq.2
                simp only [behind] at this
                omega
              refine .inr ⟨⟨hq.1, hend⟩, hreserve, ?_⟩
              rcases ih (m := m') (min (mbi.baseAddress + mbi.regionSize) end_) with h | ⟨-, h, -⟩
              · rw [h, hm']
              · rw [hm'] at h
                cases h
            · have hm' : m'.page q = m.page q := by rw [hpage, Stretch.change_out hq]
              rcases ih (m := m') (min (mbi.baseAddress + mbi.regionSize) end_) with h | ⟨hin, h⟩
              · exact .inl (h.trans hm')
              · rw [hm'] at h
                exact .inr ⟨⟨hfirst.trans hin.1, hin.2⟩, h⟩
        · rcases ih (m := m) (min (mbi.baseAddress + mbi.regionSize) end_) with h | ⟨hin, h⟩
          · exact .inl h
          · exact .inr ⟨⟨hfirst.trans hin.1, hin.2⟩, h⟩
    · exact .inl rfl

/-- `commit_nt` touches only the pages that it is given. -/
theorem commitNt_page : (commitNt c sys m addr len prot).1.page q = m.page q ∨
    Call.covers q ⟨addr, len, prot⟩ = true ∧ (m.page q).state = .reserve ∧
      (commitNt c sys m addr len prot).1.page q =
        (m.page q).give (c.prot2nt prot) := by
  refine (commitLoop_page len addr).imp_right fun ⟨hin, h⟩ => ⟨covers_iff.mpr ⟨hin.1, ?_⟩, h⟩
  have := hin.2
  simp only [behind]
  omega

/-- cosmo's `mprotect`, page by page. -/
theorem Libc.Documented.page (hc : c.Documented) (h : c.mprotect m addr len prot = (m', true)) :
    (Call.covers q ⟨addr, len, prot⟩ = true → (m.page q).state = .commit ∧
      valid (m.page q).type (c.prot2nt prot) = true ∧
      m'.page q = (m.page q).withProtect (c.prot2nt prot)) ∧
    (Call.covers q ⟨addr, len, prot⟩ = false → m'.page q = m.page q) := by
  obtain ⟨halign, ⟨rfl, rfl⟩ | ⟨old, hprotect⟩⟩ := hc m addr len prot m' h
  · refine ⟨fun hq => ?_, fun _ => rfl⟩
    obtain ⟨hq, hq'⟩ := covers_iff.mp hq
    simp only [first, behind] at hq hq'
    omega
  · obtain ⟨hall, rfl, -⟩ := protect_spec hprotect
    refine ⟨fun hq => ?_, fun hq => ?_⟩
    · obtain ⟨hq, hq'⟩ := covers_iff.mp hq
      exact ⟨(hall q hq hq').1, (hall q hq hq').2, Memory.change_in hq hq'⟩
    · refine Memory.change_out fun hin => ?_
      rw [covers_iff.mpr hin] at hq
      cases hq

/-- **`__ape_shim_mprotect`, page by page**: what it covers is committed with its protection, and was
so already where it gives no access. -/
theorem mprotect_page (hc : c.Documented) (h : mprotect c sys m addr len prot = (m', true)) :
    (Call.covers q ⟨addr, len, prot⟩ = true → (prot = 0 → (m.page q).state = .commit) ∧
      valid (m.page q).type (c.prot2nt prot) = true ∧
      m'.page q = (m.page q).give (c.prot2nt prot)) ∧
    (Call.covers q ⟨addr, len, prot⟩ = false → m'.page q = m.page q) := by
  rw [mprotect] at h
  split at h
  · rename_i hgiven
    have hpage := @commitNt_page c sys m addr len q prot
    split at h
    · cases h
    · rename_i m1 hcommit
      rw [hcommit] at hpage
      obtain ⟨hin, hout⟩ := hc.page (q := q) h
      refine ⟨fun hq => ⟨fun h0 => absurd h0 hgiven.1, ?_⟩, fun hq => ?_⟩
      · obtain ⟨hstate, hvalid, hm'⟩ := hin hq
        rcases hpage with hm1 | ⟨-, -, hm1⟩
        · rw [hm1] at hstate hvalid hm'
          exact ⟨hvalid, hm'.trans (Page.withProtect_eq _ hstate)⟩
        · rw [hm1] at hvalid hm'
          exact ⟨hvalid, hm'⟩
      · rcases hpage with hm1 | ⟨hcov, -⟩
        · exact (hout hq).trans hm1
        · rw [hcov] at hq
          cases hq
  · obtain ⟨hin, hout⟩ := hc.page (q := q) h
    refine ⟨fun hq => ?_, hout⟩
    obtain ⟨hstate, hvalid, hm'⟩ := hin hq
    exact ⟨fun _ => hstate, hvalid, hm'.trans (Page.withProtect_eq _ hstate)⟩

end Mprotect

/-! ## Every run -/

/-- What the span looks like, and why. -/
structure Held (c : Libc) (base size : Nat) (m : Memory) (log : List Call) : Prop where
  page : ∀ q, first base ≤ q → q < behind base size → m.page q = pageAfter c base q log
  /-- a page without access has had access before -/
  access : ∀ q, first base ≤ q → q < behind base size → ∀ call ∈ log, call.covers q = true →
    ∃ call' ∈ log, call'.covers q = true ∧ call'.prot ≠ 0
  valid : ∀ q, first base ≤ q → q < behind base size → ∀ call ∈ log, call.covers q = true →
    valid .priv (c.prot2nt call.prot) = true

section Held
variable {c : Libc} {sys : Sys} {base size q : Nat} {m m' : Memory} {log : List Call}

theorem pageAfter_type : (pageAfter c base q log).type = .priv := by
  rw [pageAfter]
  cases log.find? (Call.covers q) <;> rfl

theorem pageAfter_base : (pageAfter c base q log).base = base := by
  rw [pageAfter]
  cases log.find? (Call.covers q) <;> rfl

theorem pageAfter_cons_out {call : Call} (h : call.covers q = false) :
    pageAfter c base q (call :: log) = pageAfter c base q log := by
  rw [pageAfter, List.find?_cons_of_neg (by rw [h]; exact Bool.false_ne_true)]
  rfl

theorem pageAfter_none (h : log.find? (Call.covers q) = none) :
    pageAfter c base q log = .reserved base := by
  rw [pageAfter, h]
  rfl

theorem pageAfter_some {call : Call} (h : log.find? (Call.covers q) = some call) :
    pageAfter c base q log = .committed base (c.prot2nt call.prot) := by
  rw [pageAfter, h]
  rfl

theorem pageAfter_cons_in {call : Call} (h : call.covers q = true) :
    pageAfter c base q (call :: log) = .committed base (c.prot2nt call.prot) :=
  pageAfter_some (List.find?_cons_of_pos h)

/-- A page is committed if a call has covered it. -/
theorem pageAfter_commit (h : (pageAfter c base q log).state = .commit) :
    ∃ call, log.find? (Call.covers q) = some call := by
  cases hf : log.find? (Call.covers q) with
  | none =>
    rw [pageAfter_none hf] at h
    cases h
  | some call => exact ⟨call, rfl⟩

theorem Held.start (h : ∀ q, first base ≤ q → q < behind base size → m.page q = .reserved base) :
    Held c base size m [] :=
  ⟨h, nofun, nofun⟩

theorem Held.mprotect {addr len : Nat} {prot : UInt32} (hc : c.Documented)
    (h : Held c base size m log) (hcall : mprotect c sys m addr len prot = (m', true)) :
    Held c base size m' (⟨addr, len, prot⟩ :: log) where
  page q hq hq' := by
    obtain ⟨hin, hout⟩ := mprotect_page (q := q) hc hcall
    have hold := h.page q hq hq'
    cases hcov : Call.covers q ⟨addr, len, prot⟩ with
    | true =>
      rw [pageAfter_cons_in hcov, (hin hcov).2.2, hold]
      exact Page.give_eq _ pageAfter_type pageAfter_base
    | false => rw [pageAfter_cons_out hcov, hout hcov, hold]
  access q hq hq' call hmem hcov := by
    rcases List.mem_cons.mp hmem with rfl | hmem
    · by_cases hprot : prot = 0
      · -- only what is committed can lose its access
        have hstate := ((mprotect_page (q := q) hc hcall).1 hcov).1 hprot
        rw [h.page q hq hq'] at hstate
        obtain ⟨earlier, hearlier⟩ := pageAfter_commit hstate
        obtain ⟨call', hcall', hgives⟩ := h.access q hq hq' earlier
          (List.mem_of_find?_eq_some hearlier) (List.find?_some hearlier)
        exact ⟨call', List.mem_cons_of_mem _ hcall', hgives⟩
      · exact ⟨_, List.mem_cons_self, hcov, hprot⟩
    · obtain ⟨call', hcall', hgives⟩ := h.access q hq hq' call hmem hcov
      exact ⟨call', List.mem_cons_of_mem _ hcall', hgives⟩
  valid q hq hq' call hmem hcov := by
    rcases List.mem_cons.mp hmem with rfl | hmem
    · have hvalid := ((mprotect_page (q := q) hc hcall).1 hcov).2.1
      rwa [h.page q hq hq', pageAfter_type] at hvalid
    · exact h.valid q hq hq' call hmem hcov

/-- A page that a call has covered has the protection of the last that did. -/
theorem Held.covered (h : Held c base size m log) (hq : first base ≤ q) (hq' : q < behind base size)
    {call : Call} (hmem : call ∈ log) (hcov : call.covers q = true) :
    ∃ call, log.find? (Call.covers q) = some call ∧
      m.page q = .committed base (c.prot2nt call.prot) := by
  cases hf : log.find? (Call.covers q) with
  | none => exact absurd hcov (List.find?_eq_none.mp hf call hmem)
  | some last => exact ⟨last, rfl, (h.page q hq hq').trans (pageAfter_some hf)⟩

/-- A page that was given no access was not covered at all. -/
theorem Held.uncovered (h : Held c base size m log) (hq : first base ≤ q)
    (hq' : q < behind base size)
    (hnone : ¬ ∃ call ∈ log, call.covers q = true ∧ call.prot ≠ 0) : m.page q = .reserved base := by
  refine (h.page q hq hq').trans (pageAfter_none (List.find?_eq_none.mpr fun call hmem hcov => ?_))
  exact hnone (h.access q hq hq' call hmem hcov)

/-- **Every run** of calls inside the span. -/
theorem held_run (hc : c.Documented) {m0 : Memory}
    (h0 : ∀ q, first base ≤ q → q < behind base size → m0.page q = .reserved base)
    (h : (machine c base size m0).Run anyStep m log) : Held c base size m log := by
  refine h.invariant (Held.start h0) ?_
  intro m log a m' out hheld _ hstep
  cases a with
  | mprotect sys addr len prot =>
    simp only [machine, step] at hstep
    split at hstep
    · split at hstep
      · rename_i hcall
        cases hstep
        exact hheld.mprotect hc hcall
      · cases hstep
    · cases hstep
  | store bytes =>
    cases hstep
    exact ⟨hheld.page, hheld.access, hheld.valid⟩

/-- The reservation path reserves the pages of its span. -/
theorem reserveNt_page {len : Nat} (h : reserveNt sys m len = (m', .ok base)) :
    base % granularity = 0 ∧ ∀ q, first base ≤ q → q < behind base len →
      m'.page q = .reserved base := by
  rw [reserveNt, reserveAnywhere] at h
  split at h
  · cases h
  · rename_i m1 hreserve
    rw [Option.ite_none_right_eq_some] at hreserve
    split at h
    · cases h
      refine ⟨hreserve.1, fun q hq hq' => ?_⟩
      rw [reserve_page hreserve.1 hreserve.2, Stretch.change_in hq hq']
    · cases h

theorem mmap_reserved {bits : HostBits} {len : Nat} {prot lin : UInt32}
    (h : mmap bits sys m len prot lin = (m', .reserved base)) :
    reserveNt sys m len = (m', .ok base) := by
  rw [mmap] at h
  split at h
  · cases h
  · split at h
    · cases h
    · split at h
      · split at h
        · rename_i hreserve
          cases h
          exact hreserve
        · cases h
      · cases h

end Held

end ApeShim.Vm
