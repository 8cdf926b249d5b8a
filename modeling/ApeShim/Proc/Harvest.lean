import Mathlib.Data.List.Nodup
import Mathlib.Logic.Function.Basic

/-!
`__proc_harvest` of `shim/proc.c`: what becomes of a child that has ended. Its exit code is
a wait status for a cosmo program, a literal code for a native one.
-/

namespace ApeShim.Proc

/-! ## Exit codes -/

def kNtStillActive : UInt32 := 259

def kNtStatusControlCExit : UInt32 := 0xC000013A
def kNtStatusStackOverflow : UInt32 := 0xC00000FD
def kNtStatusAccessViolation : UInt32 := 0xC0000005
def kNtStatusGuardPageViolation : UInt32 := 0x80000001
def kNtStatusInPageError : UInt32 := 0xC0000006
def kNtStatusIllegalInstruction : UInt32 := 0xC000001D
def kNtStatusPrivilegedInstruction : UInt32 := 0xC0000096
def kNtStatusBreakpoint : UInt32 := 0x80000003
def kNtStatusIntegerOverflow : UInt32 := 0xC0000095
def kNtStatusFloatDivideByZero : UInt32 := 0xC000008E
def kNtStatusFloatOverflow : UInt32 := 0xC0000091
def kNtStatusFloatUnderflow : UInt32 := 0xC0000093
def kNtStatusFloatInexactResult : UInt32 := 0xC000008F
def kNtStatusFloatDenormalOperand : UInt32 := 0xC000008D
def kNtStatusFloatInvalidOperation : UInt32 := 0xC0000090
def kNtStatusFloatStackCheck : UInt32 := 0xC0000092
def kNtStatusIntegerDivideBYZero : UInt32 := 0xC0000094
def kNtStatusDllNotFound : UInt32 := 0xC0000135
def kNtStatusDllInitFailed : UInt32 := 0xC0000142
def kNtStatusOrdinalNotFound : UInt32 := 0xC0000138
def kNtStatusEntrypointNotFound : UInt32 := 0xC0000139
def kNtStatusAssertionFailure : UInt32 := 0xC0000420

/-- The signal numbers of the host. -/
structure Signals where
  sigint : UInt32
  sigsegv : UInt32
  sigbus : UInt32
  sigill : UInt32
  sigtrap : UInt32
  sigfpe : UInt32
  sigsys : UInt32
  sigabrt : UInt32

/-- `__proc_native_wstatus` -/
def nativeWstatus (g : Signals) (code : UInt32) : UInt32 :=
  if code = kNtStatusControlCExit then g.sigint
  else if code ∈ [kNtStatusStackOverflow, kNtStatusAccessViolation, kNtStatusGuardPageViolation] then
    g.sigsegv
  else if code = kNtStatusInPageError then g.sigbus
  else if code ∈ [kNtStatusIllegalInstruction, kNtStatusPrivilegedInstruction] then g.sigill
  else if code = kNtStatusBreakpoint then g.sigtrap
  else if code ∈ [kNtStatusIntegerOverflow, kNtStatusFloatDivideByZero, kNtStatusFloatOverflow,
      kNtStatusFloatUnderflow, kNtStatusFloatInexactResult, kNtStatusFloatDenormalOperand,
      kNtStatusFloatInvalidOperation, kNtStatusFloatStackCheck, kNtStatusIntegerDivideBYZero] then
    g.sigfpe
  else if code ∈ [kNtStatusDllNotFound, kNtStatusDllInitFailed, kNtStatusOrdinalNotFound,
      kNtStatusEntrypointNotFound] then g.sigsys
  else if code = kNtStatusAssertionFailure then g.sigabrt
  else (code &&& 0xFF) <<< 8

/-- The code that stands for 259 is an ordinary one. -/
theorem nativeWstatus_reserved (g : Signals) : nativeWstatus g 0xc9af3d51 = 0x5100 := by
  rw [nativeWstatus, if_neg (by decide), if_neg (by decide), if_neg (by decide), if_neg (by decide),
    if_neg (by decide), if_neg (by decide), if_neg (by decide), if_neg (by decide)]
  decide

/-! ## The children -/

inductive Status
  | alive | zombie
  deriving DecidableEq, Repr

/-- `struct Proc` -/
structure Child where
  handle : Int
  status : Status
  wstatus : UInt32
  waiters : Nat
  deriving DecidableEq

/-- `__proc`: the children by number, and the lists they are on. -/
structure Procs where
  child : Nat → Child
  list : List Nat
  zombies : List Nat
  free : List Nat
  waiters : Nat
  /-- the event `haszombies` is set -/
  haszombies : Bool
  /-- the handles closed -/
  closed : List Int

/-- What the system says of a process handle. -/
structure Nt where
  signals : Signals
  /-- `GetExitCodeProcess` -/
  exitCode : Int → UInt32
  /-- `WaitForSingleObject` does not time out -/
  ended : Int → Bool
  /-- `__proc_is_native_child` -/
  isNativeChild : Int → Bool
  /-- SIGCHLD is ignored, or has SA_NOCLDWAIT -/
  nocldwait : Bool
  wifsignaled : UInt32 → Bool

/-- The `si_code` of the SIGCHLD to raise. -/
inductive Sic
  | none | exited | killed
  deriving DecidableEq, Repr

/-- The status that is kept for an exit code. -/
def Nt.wstatusOf (nt : Nt) (handle : Int) (status : UInt32) : UInt32 :=
  if status = 0xc9af3d51 then kNtStillActive
  else if nt.isNativeChild handle then nativeWstatus nt.signals status
  else status

/-- `__proc_harvest` -/
def Nt.harvest (nt : Nt) (s : Procs) (i : Nat) (iswait4 : Bool) : Procs × Sic :=
  let pr := s.child i
  let status := nt.exitCode pr.handle
  if status = kNtStillActive ∧ nt.ended pr.handle = false then (s, .none)
  else if status &&& 0xFF000000 = 0x23000000 then
    ({ s with
        child := Function.update s.child i { pr with handle := (status &&& 0x00FFFFFF).toNat }
        closed := pr.handle :: s.closed }, .none)
  else
    let status := nt.wstatusOf pr.handle status
    if iswait4 = false ∧ pr.waiters = 0 ∧ s.waiters = 0 ∧ nt.nocldwait = true then
      ({ s with
          child := Function.update s.child i { pr with wstatus := status }
          list := s.list.erase i
          free := i :: s.free
          closed := pr.handle :: s.closed }, .none)
    else
      ({ s with
          child := Function.update s.child i { pr with wstatus := status, status := .zombie }
          list := s.list.erase i
          zombies := i :: s.zombies
          haszombies := true },
        if pr.waiters = 0 ∧ s.waiters = 0 then
          if nt.wifsignaled status then .killed else .exited
        else .none)

/-! ## What a waiter learns -/

/-- A child that is waited for. -/
structure Procs.Running (s : Procs) (i : Nat) : Prop where
  listed : i ∈ s.list
  once : s.list.Nodup
  notZombie : i ∉ s.zombies
  notFree : i ∉ s.free

/-- The child has left the list, for the zombies or reaped at once, with this wait status and
with the handle it had. -/
structure Reported (nt : Nt) (s s' : Procs) (i : Nat) (iswait4 : Bool) (w : UInt32) : Prop where
  left : i ∉ s'.list
  moved : (i ∈ s'.zombies ∧ (s'.child i).status = .zombie) ∨
    (i ∈ s'.free ∧ iswait4 = false ∧ (s.child i).waiters = 0 ∧ s.waiters = 0 ∧ nt.nocldwait = true)
  wstatus : (s'.child i).wstatus = w
  handle : (s'.child i).handle = (s.child i).handle

section Harvest

variable {nt : Nt} {s : Procs} {i : Nat} (iswait4 : Bool)

/-- A code of the range of `execve` keeps the child on the list, under another handle. -/
theorem harvest_handover (hended : nt.ended (s.child i).handle = true)
    (hc : nt.exitCode (s.child i).handle &&& 0xFF000000 = 0x23000000) :
    (nt.harvest s i iswait4).1.list = s.list := by
  rw [Nt.harvest]
  simp only [hended, Bool.true_eq_false, and_false, if_false, hc, if_true]

/-- Every other code is kept as a wait status. -/
theorem harvest_kept (h : s.Running i) (hended : nt.ended (s.child i).handle = true)
    (hc : nt.exitCode (s.child i).handle &&& 0xFF000000 ≠ 0x23000000) :
    Reported nt s (nt.harvest s i iswait4).1 i iswait4
      (nt.wstatusOf (s.child i).handle (nt.exitCode (s.child i).handle)) := by
  have hleft : i ∉ s.list.erase i := fun hm => (List.Nodup.mem_erase_iff h.once).mp hm |>.1 rfl
  rw [Nt.harvest]
  simp only [hended, Bool.true_eq_false, and_false, if_false, if_neg hc]
  split
  · rename_i hreap
    exact ⟨hleft, Or.inr ⟨List.mem_cons_self, hreap⟩, by simp, by simp⟩
  · exact ⟨hleft, Or.inl ⟨List.mem_cons_self, by simp⟩, by simp, by simp⟩

end Harvest

/-- **A native child's exit code** is reported exactly if it is none of the codes of `execve`
and not the one that stands for 259. -/
theorem native_reported_iff (nt : Nt) (s : Procs) (i : Nat) (iswait4 : Bool) (c : UInt32)
    (h : s.Running i) (hended : nt.ended (s.child i).handle = true)
    (hnative : nt.isNativeChild (s.child i).handle = true)
    (hc : nt.exitCode (s.child i).handle = c) :
    Reported nt s (nt.harvest s i iswait4).1 i iswait4 (nativeWstatus nt.signals c) ↔
      c &&& 0xFF000000 ≠ 0x23000000 ∧ c ≠ 0xc9af3d51 := by
  subst hc
  constructor
  · intro hrep
    have hnot : nt.exitCode (s.child i).handle &&& 0xFF000000 ≠ 0x23000000 := by
      intro hc
      have := hrep.left
      rw [harvest_handover iswait4 hended hc] at this
      exact this h.listed
    refine ⟨hnot, fun hc => ?_⟩
    have hkept := (harvest_kept iswait4 h hended hnot).wstatus
    rw [hrep.wstatus, Nt.wstatusOf, if_pos hc, hc, nativeWstatus_reserved] at hkept
    exact absurd hkept (by decide)
  · rintro ⟨hnot, hne⟩
    have hkept := harvest_kept iswait4 h hended hnot
    rwa [Nt.wstatusOf, if_neg hne, if_pos hnative] at hkept

/-- One child, native, that ended with this code. -/
def ntOf (c : UInt32) : Nt :=
  ⟨⟨2, 11, 7, 4, 5, 8, 31, 6⟩, fun _ => c, fun _ => true, fun _ => true, false, fun _ => false⟩

def oneChild : Procs := ⟨fun _ => ⟨0x64, .alive, 0, 0⟩, [0], [], [], 0, false, []⟩

theorem native_reported_still_active :
    Reported (ntOf 259) oneChild ((ntOf 259).harvest oneChild 0 false).1 0 false 0x300 :=
  (native_reported_iff (ntOf 259) oneChild 0 false 259 ⟨by decide, by decide, by decide, by decide⟩
    rfl rfl rfl).mpr ⟨by decide, by decide⟩

/-- A code of the range of `execve` is taken for a handle, and one more for a code of 259. -/
theorem native_code_unreported :
    (¬ Reported (ntOf 0x23000007) oneChild ((ntOf 0x23000007).harvest oneChild 0 false).1 0 false
      (nativeWstatus (ntOf 0x23000007).signals 0x23000007)) ∧
    (((ntOf 0x23000007).harvest oneChild 0 false).1.child 0).handle = 7 ∧
    (¬ Reported (ntOf 0xc9af3d51) oneChild ((ntOf 0xc9af3d51).harvest oneChild 0 false).1 0 false
      (nativeWstatus (ntOf 0xc9af3d51).signals 0xc9af3d51)) ∧
    (((ntOf 0xc9af3d51).harvest oneChild 0 false).1.child 0).wstatus = 259 := by
  refine ⟨fun h => ?_, by decide, fun h => ?_, by decide⟩
  · have hhandle := h.handle
    revert hhandle
    decide
  · have hw := h.wstatus
    revert hw
    decide

end ApeShim.Proc
