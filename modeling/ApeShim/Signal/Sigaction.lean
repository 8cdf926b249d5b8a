import ApeShim.Lib.Flags
import ApeShim.Lib.Machine
import Mathlib.Logic.Function.Basic

/-!
`__ape_shim_sigaction` of `shim/signal.c`, store by store, with signals
delivered between any two of its steps. The program's handlers live in two
arrays, the kernel holds one of the trampolines, and a call changes the arrays
before it asks the kernel. What the kernel answers is part of the label.
-/

namespace ApeShim.Signal
open Flags Trace

/-! ## Numbers and flags -/

/-- What the host decides: the rows of the signal and flag tables, Linux value
first, and its SA_RESETHAND. -/
structure SigHost where
  sigRows : List (Int × Int)
  saRows : List (BitVec 32 × BitVec 64)
  SA_RESETHAND : BitVec 64

def LIN_SA_SIGINFO : BitVec 32 := 4#32

/-- `SHIM_MAXSIG`; cosmo supports 1 to 64. -/
def MAXSIG : Int := 65

def sigToHost (k : SigHost) (lin : Int) : Int :=
  match k.sigRows.find? fun r => r.1 = lin with
  | some r => r.2
  | none => lin

def sigToLinux (k : SigHost) (host : Int) : Int :=
  match k.sigRows.find? fun r => r.2 = host with
  | some r => r.1
  | none => host

def saFlagsToHost (k : SigHost) (lin : BitVec 32) : BitVec 64 :=
  k.saRows.foldl (fun host r => raise (has lin r.1) r.2 host) 0#64

def saFlagsToLinux (k : SigHost) (host : BitVec 64) : BitVec 32 :=
  k.saRows.foldl (fun lin r => raise (has host r.2) r.1 lin) 0#32

/-- `hostsig > 0 && hostsig < SHIM_MAXSIG`. -/
def hasSlot (sig : Int) : Bool := 0 < sig && sig < MAXSIG

/-! ## Actions -/

/-- The three values `special_disposition` knows, or a handler of the program. -/
inductive Disposition
  | dfl
  | ign
  | err
  | user (h : Nat)
  deriving DecidableEq, Repr

/-- `struct lin_sigaction`. -/
structure LinAction where
  handler : Disposition
  mask : BitVec 64
  flags : BitVec 32
  deriving DecidableEq, Repr

inductive HostHandler
  | dfl
  | ign
  | err
  | tramp1
  | tramp3
  deriving DecidableEq, Repr

/-- The host's `struct sigaction`. -/
structure HostAction where
  handler : HostHandler
  mask : BitVec 64
  flags : BitVec 64
  deriving DecidableEq, Repr

def LinAction.siginfo (a : LinAction) : Bool := has a.flags LIN_SA_SIGINFO

/-- What `act.sa_handler` is set to. -/
def LinAction.hostHandler (a : LinAction) : HostHandler :=
  match a.handler with
  | .dfl => .dfl
  | .ign => .ign
  | .err => .err
  | .user _ => if a.siginfo then .tramp3 else .tramp1

def LinAction.toHost (k : SigHost) (a : LinAction) : HostAction :=
  ⟨a.hostHandler, a.mask, saFlagsToHost k a.flags⟩

def HostHandler.isTramp (h : HostHandler) : Bool := h = .tramp1 || h = .tramp3

/-! ## The tables and the call -/

/-- `g_h1` and `g_h3`, indexed by host signal, and what the kernel holds. -/
structure Tables where
  h1 : Int → Option Nat
  h3 : Int → Option Nat
  kernel : Int → HostAction

def Tables.store1 (t : Tables) (sig : Int) (h : Option Nat) : Tables :=
  { t with h1 := Function.update t.h1 sig h }

def Tables.store3 (t : Tables) (sig : Int) (h : Option Nat) : Tables :=
  { t with h3 := Function.update t.h3 sig h }

/-- A call on the host signal `sig`; `entry` is what the tables were when it
came in, from which `prev1` and `prev3` are read. -/
structure Call where
  sig : Int
  act : Option LinAction
  wantOld : Bool
  entry : Tables

def Call.prev1 (c : Call) : Option Nat := if hasSlot c.sig then c.entry.h1 c.sig else none

def Call.prev3 (c : Call) : Option Nat := if hasSlot c.sig then c.entry.h3 c.sig else none

/-- The first of the two stores before the kernel is asked. -/
def Call.firstStore (c : Call) (a : LinAction) (t : Tables) : Tables :=
  match a.handler with
  | .user h => if a.siginfo then t.store3 c.sig (some h) else t.store1 c.sig (some h)
  | _ => t.store1 c.sig none

def Call.secondStore (c : Call) (a : LinAction) (t : Tables) : Tables :=
  match a.handler with
  | .user _ => if a.siginfo then t.store1 c.sig none else t.store3 c.sig none
  | _ => t.store3 c.sig none

/-- The old action handed back: a trampoline stands for the previous handler. -/
def Call.oldAction (k : SigHost) (c : Call) (old : HostAction) : LinAction where
  handler :=
    match old.handler with
    | .dfl => .dfl
    | .ign => .ign
    | .err => .err
    | .tramp1 => c.prev1.elim .dfl .user
    | .tramp3 => c.prev3.elim .dfl .user
  mask := old.mask
  flags := saFlagsToLinux k old.flags

inductive Phase
  | idle
  | entered (c : Call)
  /-- one of the two slots is written -/
  | half (c : Call) (a : LinAction)
  /-- about to call the host's `sigaction` -/
  | asking (c : Call)
  /-- the host refused; about to roll back -/
  | refused (c : Call)
  | restoring (c : Call)

structure SigState where
  tables : Tables
  phase : Phase

/-- What a delivery runs. -/
inductive Ran
  | default
  | ignored
  | error
  | plain (h : Nat) (signum : Int)
  | info (h : Nat) (signum : Int)
  /-- a trampoline that found no handler -/
  | nothing
  deriving DecidableEq, Repr

/-- Kernel and trampolines together. -/
def Tables.deliver (k : SigHost) (t : Tables) (sig : Int) : Ran :=
  match (t.kernel sig).handler with
  | .dfl => .default
  | .ign => .ignored
  | .err => .error
  | .tramp1 => (t.h1 sig).elim .nothing fun h => .plain h (sigToLinux k sig)
  | .tramp3 => (t.h3 sig).elim .nothing fun h => .info h (sigToLinux k sig)

def Tables.resets (k : SigHost) (t : Tables) (sig : Int) : Bool :=
  (t.kernel sig).handler.isTramp && has (t.kernel sig).flags k.SA_RESETHAND

/-- What the kernel does to an SA_RESETHAND action when it is used. -/
def Tables.reset (t : Tables) (sig : Int) : Tables :=
  { t with kernel := Function.update t.kernel sig { t.kernel sig with handler := .dfl } }

inductive SigLabel
  | call (linSig : Int) (act : Option LinAction) (wantOld : Bool)
  | tick
  /-- the host's `sigaction` succeeds or fails -/
  | answer (ok : Bool)
  | deliver (sig : Int)

inductive SigObs
  | installed (sig : Int) (a : LinAction)
  | reported (sig : Int) (old : LinAction)
  /-- a call returned -1 -/
  | failed (c : Call)
  | ran (sig : Int) (r : Ran)
  /-- an SA_RESETHAND action was used up -/
  | reset (sig : Int)

/-- A kernel reset happens to the tables and to what the call found on entry
alike, so that `entry` stays what there would be without the call. -/
def Phase.mapEntry (f : Tables → Tables) : Phase → Phase
  | .idle => .idle
  | .entered c => .entered { c with entry := f c.entry }
  | .half c a => .half { c with entry := f c.entry } a
  | .asking c => .asking { c with entry := f c.entry }
  | .refused c => .refused { c with entry := f c.entry }
  | .restoring c => .restoring { c with entry := f c.entry }

def tickStep (s : SigState) : Option (SigState × List SigObs) :=
  match s.phase with
  | .entered c =>
      match c.act with
      | some a =>
          if hasSlot c.sig then some (⟨c.firstStore a s.tables, .half c a⟩, [])
          else some (⟨s.tables, .asking c⟩, [])
      | none => some (⟨s.tables, .asking c⟩, [])
  | .half c a => some (⟨c.secondStore a s.tables, .asking c⟩, [])
  | .refused c => some (⟨s.tables.store1 c.sig c.prev1, .restoring c⟩, [])
  | .restoring c => some (⟨s.tables.store3 c.sig c.prev3, .idle⟩, [.failed c])
  | _ => none

/-- The host supports 1 to 64 and refuses every other number. -/
def answerStep (k : SigHost) (s : SigState) (ok : Bool) : Option (SigState × List SigObs) :=
  match s.phase with
  | .asking c =>
      if ok then
        if hasSlot c.sig then
          let kernel := c.act.elim s.tables.kernel fun a =>
            Function.update s.tables.kernel c.sig (a.toHost k)
          some (⟨{ s.tables with kernel := kernel }, .idle⟩,
            (c.act.elim [] fun a => [.installed c.sig a]) ++
              if c.wantOld then [.reported c.sig (c.oldAction k (s.tables.kernel c.sig))] else [])
        else none
      else if c.act.isSome && hasSlot c.sig then some (⟨s.tables, .refused c⟩, [])
      else some (⟨s.tables, .idle⟩, [.failed c])
  | _ => none

def sigStep (k : SigHost) (s : SigState) : SigLabel → Option (SigState × List SigObs)
  | .call linSig act wantOld =>
      match s.phase with
      | .idle => some (⟨s.tables, .entered ⟨sigToHost k linSig, act, wantOld, s.tables⟩⟩, [])
      | _ => none
  | .tick => tickStep s
  | .answer ok => answerStep k s ok
  | .deliver sig =>
      let r := SigObs.ran sig (s.tables.deliver k sig)
      if s.tables.resets k sig then
        some (⟨s.tables.reset sig, s.phase.mapEntry fun t => t.reset sig⟩, [.reset sig, r])
      else some (s, [r])

/-- At the start a signal has its default action, or is ignored if the process
inherited that. -/
def sigMachine (k : SigHost) (inherited : Int → Bool) : Machine SigState SigLabel SigObs where
  init := ⟨⟨fun _ => none, fun _ => none,
    fun sig => ⟨if inherited sig then .ign else .dfl, 0, 0⟩⟩, .idle⟩
  step := sigStep k

end ApeShim.Signal
