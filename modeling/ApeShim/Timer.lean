import ApeShim.Lib.Replay
import Mathlib.Tactic.Linarith

/-!
The POSIX timers of `shim/timer.c` on a host without them: one timer at most, on
`ITIMER_REAL`, behind a flag that says whether it was created.
-/

namespace ApeShim.Timer
open Replay

/-- `struct itimerspec` -/
structure Spec where
  ivSec : Int
  ivNsec : Int
  sec : Int
  nsec : Int
  deriving DecidableEq, Repr

/-- `struct itimerval` -/
structure Val where
  ivSec : Int
  ivUsec : Int
  sec : Int
  usec : Int
  deriving DecidableEq, Repr

/-- Linux takes it. -/
structure Spec.Valid (s : Spec) : Prop where
  ivSec : 0 ≤ s.ivSec
  ivNsec : 0 ≤ s.ivNsec ∧ s.ivNsec < 1000000000
  sec : 0 ≤ s.sec
  nsec : 0 ≤ s.nsec ∧ s.nsec < 1000000000

structure Val.Valid (v : Val) : Prop where
  ivSec : 0 ≤ v.ivSec
  ivUsec : 0 ≤ v.ivUsec ∧ v.ivUsec < 1000000
  sec : 0 ≤ v.sec
  usec : 0 ≤ v.usec ∧ v.usec < 1000000

/-! ## The conversions -/

/-- `its_to_val`: nanoseconds round up. -/
def itsToVal (s : Spec) : Val :=
  ⟨s.ivSec, (s.ivNsec + 999).tdiv 1000, s.sec, (s.nsec + 999).tdiv 1000⟩

/-- `val_to_its` -/
def valToIts (v : Val) : Spec := ⟨v.ivSec, v.ivUsec * 1000, v.sec, v.usec * 1000⟩

/-! ## The timer functions -/

inductive Errno
  | einval | eagain | enotsup
  deriving DecidableEq, Repr

/-- `LIN_SIGEV_SIGNAL` -/
def linSigevSignal : Int := 0

def SIGALRM : Int := 14

/-- `FALLBACK_TIMER` -/
def fallbackTimer : Nat := 0x7a1e

/-- What `setitimer` takes: at least what is valid. -/
structure Host where
  accepts : Val → Bool
  accepts_valid : ∀ v : Val, v.Valid → accepts v = true

/-- `fallback_live`, and what `ITIMER_REAL` holds. -/
structure State where
  live : Bool
  real : Val
  deriving DecidableEq

def off : Val := ⟨0, 0, 0, 0⟩

def init : State := ⟨false, off⟩

inductive Op
  /-- with `sigev_signo` and `sigev_notify`, unless there is no sigevent -/
  | create (sev : Option (Int × Int))
  /-- `old`: the old value is asked for -/
  | settime (id : Nat) (flags : Int) (new : Spec) (old : Bool)
  | gettime (id : Nat)
  | delete (id : Nat)
  /-- time goes by -/
  | elapse (left : Val)

/-- What an operation returns, stores, and hands to `setitimer`. -/
structure Out where
  ret : Except Errno Unit
  timerid : Option Nat := none
  stored : Option Spec := none
  handed : Option Val := none

variable (host : Host)

/-- `timer_create` -/
def create (s : State) (sev : Option (Int × Int)) : State × Out :=
  if sev.any fun (signo, notify) => notify ≠ linSigevSignal || signo ≠ SIGALRM then
    (s, { ret := .error .enotsup })
  else if s.live then (s, { ret := .error .eagain })
  else ({ s with live := true }, { ret := .ok (), timerid := some fallbackTimer })

/-- `timer_settime` -/
def settime (s : State) (flags : Int) (new : Spec) (old : Bool) : State × Out :=
  if flags ≠ 0 then (s, { ret := .error .enotsup })
  else
    let want := itsToVal new
    if host.accepts want then
      ({ s with real := want },
        { ret := .ok (), stored := if old then some (valToIts s.real) else none, handed := some want })
    else (s, { ret := .error .einval, handed := some want })

/-- `timer_gettime` -/
def gettime (s : State) : State × Out := (s, { ret := .ok (), stored := some (valToIts s.real) })

/-- `timer_delete` -/
def delete (_ : State) : State × Out := (⟨false, off⟩, { ret := .ok (), handed := some off })

def step (s : State) : Op → State × Out
  | .create sev => create s sev
  | .settime _ flags new old => settime host s flags new old
  | .gettime _ => gettime s
  | .delete _ => delete s
  | .elapse left => ({ s with real := left }, { ret := .ok () })

/-! ## What a timer should do -/

/-- The timer an operation is about. -/
def Op.target : Op → Option Nat
  | .settime id _ _ _ => some id
  | .gettime id => some id
  | .delete id => some id
  | _ => none

/-- The timer that was created last and is not deleted. -/
def State.Is (s : State) (id : Nat) : Prop := s.live = true ∧ id = fallbackTimer

instance (s : State) (id : Nat) : Decidable (s.Is id) := inferInstanceAs (Decidable (_ ∧ _))

/-- At least as long, in both parts. -/
structure Covers (v : Spec) (new : Spec) : Prop where
  interval : new.ivSec * 1000000000 + new.ivNsec ≤ v.ivSec * 1000000000 + v.ivNsec
  value : new.sec * 1000000000 + new.nsec ≤ v.sec * 1000000000 + v.nsec

/-- Zero in the same parts, and at least as long. -/
structure Carries (want : Val) (new : Spec) : Prop where
  interval_zero : (want.ivSec = 0 ∧ want.ivUsec = 0) ↔ (new.ivSec = 0 ∧ new.ivNsec = 0)
  value_zero : (want.sec = 0 ∧ want.usec = 0) ↔ (new.sec = 0 ∧ new.nsec = 0)
  covers : Covers (valToIts want) new

/-- One operation as it should be. -/
structure Behaves (s : State) (op : Op) : Prop where
  handed : ∀ v ∈ (step host s op).2.handed, v.Valid
  carried : ∀ id flags new old, op = .settime id flags new old →
    ∀ v ∈ (step host s op).2.handed, Carries v new
  reported : ∀ id new old, op = .settime id 0 new old → s.Is id → (step host s op).2.ret = .ok () ∧
    ∀ v ∈ (step host (step host s op).1 (.gettime id)).2.stored, Covers v new
  foreign : ∀ id ∈ op.target, ¬ s.Is id →
    (∃ e, (step host s op).2.ret = .error e) ∧ (step host s op).1 = s
  single : ∀ sev, op = .create sev → (step host s op).2.ret = .ok () → s.live = false

/-- No nanosecond of the last microsecond of a second is asked for. -/
def Spec.Fits (new : Spec) : Prop := new.ivNsec ≤ 999999000 ∧ new.nsec ≤ 999999000

instance (new : Spec) : Decidable new.Fits := inferInstanceAs (Decidable (_ ∧ _))

/-- The operation is about the live timer, and asks for a time that microseconds hold. -/
def Meets (s : State) : Op → Prop
  | .settime id flags new _ => flags ≠ 0 ∨ (s.Is id ∧ new.Fits)
  | .gettime id => s.Is id
  | .delete id => s.Is id
  | _ => True

/-- What Linux and the clock hand in. -/
def Op.Valid : Op → Prop
  | .settime _ _ new _ => new.Valid
  | .elapse left => left.Valid
  | _ => True

section Conversion

variable {s : Spec}

theorem tdiv_eq {n : Int} (h : 0 ≤ n) : (n + 999).tdiv 1000 = (n + 999) / 1000 :=
  Int.tdiv_eq_ediv_of_nonneg (by omega)

theorem itsToVal_carries (h : s.Valid) : Carries (itsToVal s) s := by
  have hiv := h.ivNsec
  have hval := h.nsec
  refine ⟨?_, ?_, ?_, ?_⟩
  · simp only [itsToVal, tdiv_eq hiv.1]
    omega
  · simp only [itsToVal, tdiv_eq hval.1]
    omega
  · simp only [valToIts, itsToVal, tdiv_eq hiv.1]
    omega
  · simp only [valToIts, itsToVal, tdiv_eq hval.1]
    omega

/-- The rounding reaches the next second in the last microsecond. -/
theorem itsToVal_valid_iff (h : s.Valid) : (itsToVal s).Valid ↔ s.Fits := by
  have hiv := h.ivNsec
  have hval := h.nsec
  constructor
  · rintro ⟨-, hu, -, hv⟩
    simp only [itsToVal, tdiv_eq hiv.1] at hu
    simp only [itsToVal, tdiv_eq hval.1] at hv
    exact ⟨by omega, by omega⟩
  · rintro ⟨hu, hv⟩
    refine ⟨h.ivSec, ?_, h.sec, ?_⟩
    · simp only [itsToVal, tdiv_eq hiv.1]
      omega
    · simp only [itsToVal, tdiv_eq hval.1]
      omega

end Conversion

section Step

variable {host} {s : State}

theorem settime_flags {flags : Int} (h : flags ≠ 0) (new : Spec) (old : Bool) :
    settime host s flags new old = (s, { ret := .error .enotsup }) := if_pos h

/-- A time that fits is set. -/
theorem settime_valid {new : Spec} (h : (itsToVal new).Valid) (old : Bool) :
    settime host s 0 new old = ({ s with real := itsToVal new },
      { ret := .ok (), stored := if old then some (valToIts s.real) else none
        handed := some (itsToVal new) }) := by
  rw [settime, if_neg (by simp)]
  simp only [host.accepts_valid _ h, if_true]

theorem settime_handed (new : Spec) (old : Bool) :
    (settime host s 0 new old).2.handed = some (itsToVal new) := by
  rw [settime, if_neg (by simp)]
  dsimp only
  split <;> rfl

theorem behaves_quiet {op : Op} (hhanded : (step host s op).2.handed = none)
    (hset : ∀ id new old, op ≠ .settime id 0 new old)
    (hforeign : ∀ id ∈ op.target, ¬ s.Is id →
      (∃ e, (step host s op).2.ret = .error e) ∧ (step host s op).1 = s)
    (hsingle : ∀ sev, op = .create sev → (step host s op).2.ret = .ok () → s.live = false) :
    Behaves host s op where
  handed := by
    rw [hhanded]
    nofun
  carried := by
    rw [hhanded]
    nofun
  reported := fun id new old he => absurd he (hset id new old)
  foreign := hforeign
  single := hsingle

theorem meets_of_behaves {op : Op} (hop : op.Valid) (h : Behaves host s op) : Meets s op := by
  cases op with
  | create sev => trivial
  | elapse left => trivial
  | settime id flags new old =>
    by_cases hflags : flags = 0
    · subst hflags
      right
      have hvalid : (itsToVal new).Valid := h.handed _ (settime_handed new old)
      refine ⟨?_, (itsToVal_valid_iff hop).mp hvalid⟩
      by_contra hnot
      obtain ⟨⟨e, he⟩, -⟩ := h.foreign id rfl hnot
      have hok : (step host s (.settime id 0 new old)).2.ret = .ok () := by
        rw [step, settime_valid hvalid]
      rw [hok] at he
      cases he
    · exact Or.inl hflags
  | gettime id =>
    by_contra hnot
    obtain ⟨⟨e, he⟩, -⟩ := h.foreign id rfl hnot
    cases he
  | delete id =>
    by_contra hnot
    obtain ⟨⟨e, he⟩, -⟩ := h.foreign id rfl hnot
    cases he

theorem behaves_of_meets {op : Op} (hop : op.Valid) (h : Meets s op) : Behaves host s op := by
  cases op with
  | create sev =>
    refine behaves_quiet ?_ nofun nofun fun sev' he hret => ?_
    · rw [step, create]
      split
      · rfl
      · split <;> rfl
    · by_contra hlive
      rw [Bool.not_eq_false] at hlive
      rw [step, create] at hret
      rw [if_pos hlive] at hret
      split at hret
      · cases hret
      · cases hret
  | elapse left => exact behaves_quiet rfl nofun nofun nofun
  | gettime id => exact behaves_quiet rfl nofun (fun i hi hnot => absurd (Option.some.inj hi ▸ h) hnot) nofun
  | settime id flags new old =>
    by_cases hflags : flags = 0
    · subst hflags
      obtain ⟨hid, hfits⟩ := h.resolve_left (by simp)
      have hvalid := (itsToVal_valid_iff hop).mpr hfits
      have hcarries := itsToVal_carries hop
      have hstep : step host s (.settime id 0 new old) = _ := settime_valid hvalid old
      refine ⟨?_, ?_, ?_, ?_, nofun⟩
      · rw [hstep]
        rintro v ⟨⟩
        exact hvalid
      · rw [hstep]
        rintro _ _ _ _ ⟨⟩ v ⟨⟩
        exact hcarries
      · rw [hstep]
        rintro _ _ _ ⟨⟩ -
        refine ⟨rfl, ?_⟩
        rintro v ⟨⟩
        exact hcarries.covers
      · rintro i ⟨⟩ hnot
        exact absurd hid hnot
    · have hstep : step host s (.settime id flags new old) = (s, { ret := .error .enotsup }) :=
        settime_flags hflags new old
      refine behaves_quiet (by rw [hstep]) ?_ ?_ nofun
      · rintro _ _ _ ⟨⟩
        exact hflags rfl
      · intro i _ _
        rw [hstep]
        exact ⟨⟨_, rfl⟩, rfl⟩
  | delete id =>
    refine ⟨?_, nofun, nofun, ?_, nofun⟩
    · rintro v ⟨⟩
      exact ⟨by decide, by decide, by decide, by decide⟩
    · rintro i ⟨⟩ hnot
      exact absurd h hnot

end Step

/-! ## Runs -/

def counted (n : Nat) : Op → Except Errno Unit → Nat
  | .create _, .ok _ => n + 1
  | .delete id, .ok _ => if id = fallbackTimer then n - 1 else n
  | _, _ => n

/-- How many timers a run leaves created and not deleted, counted from `n`. -/
def timers : Nat → State → List Op → Nat
  | n, _, [] => n
  | n, s, op :: ops => timers (counted n op (step host s op).2.ret) (step host s op).1 ops

section Count

variable {host} {s : State}

/-- About the live timer only, the flag counts the timers. -/
theorem counted_step {op : Op} (h : Meets s op) :
    counted s.live.toNat op (step host s op).2.ret = (step host s op).1.live.toNat := by
  cases op with
  | create sev =>
    rw [step, create]
    split
    · rfl
    · split
      · rfl
      · rename_i hlive
        rw [Bool.not_eq_true] at hlive
        rw [hlive]
        rfl
  | settime id flags new old =>
    rw [step, settime]
    split
    · rfl
    · dsimp only
      split <;> rfl
  | gettime id => rfl
  | delete id =>
    obtain ⟨hlive, rfl⟩ := h
    rw [hlive]
    rfl
  | elapse left => rfl

theorem timers_le_one {ops : List Op} (h : ∀ x ∈ visits (step host) s ops, Meets x.1 x.2) :
    timers host s.live.toNat s ops ≤ 1 := by
  induction ops generalizing s with
  | nil => exact Bool.toNat_le s.live
  | cons op ops ih =>
    rw [timers, counted_step (h (s, op) List.mem_cons_self)]
    exact ih fun x hx => h x (List.mem_cons_of_mem _ hx)

end Count

/-- **The timers of the fallback host** behave, in every run of valid requests and with one
timer at most at any time, exactly if each operation is about the live timer and no request
needs the last microsecond of a second. -/
theorem timers_behave_iff (ops : List Op) (hops : ∀ op ∈ ops, op.Valid) :
    ((∀ x ∈ visits (step host) init ops, Behaves host x.1 x.2) ∧
        ∀ n, timers host 0 init (ops.take n) ≤ 1) ↔
      ∀ x ∈ visits (step host) init ops, Meets x.1 x.2 := by
  constructor
  · rintro ⟨hbehaves, -⟩ x hx
    exact meets_of_behaves (hops x.2 (mem_of_mem_visits hx)) (hbehaves x hx)
  · intro hmeets
    constructor
    · intro x hx
      exact behaves_of_meets (hops x.2 (mem_of_mem_visits hx)) (hmeets x hx)
    · intro n
      have htake : ∀ x ∈ visits (step host) init (ops.take n), Meets x.1 x.2 := by
        intro x hx
        rw [visits_take] at hx
        exact hmeets x (List.mem_of_mem_take hx)
      exact timers_le_one (s := init) htake

/-- A host that takes what is valid. -/
def strict : Host where
  accepts v := decide (0 ≤ v.ivSec ∧ (0 ≤ v.ivUsec ∧ v.ivUsec < 1000000) ∧ 0 ≤ v.sec ∧
    0 ≤ v.usec ∧ v.usec < 1000000)
  accepts_valid _ h := decide_eq_true ⟨h.ivSec, h.ivUsec, h.sec, h.usec⟩

theorem timers_behave_set :
    Behaves strict (step strict init (.create none)).1 (.settime fallbackTimer 0 ⟨0, 0, 0, 1⟩ true) := by
  refine ((timers_behave_iff strict [.create none, .settime fallbackTimer 0 ⟨0, 0, 0, 1⟩ true,
    .gettime fallbackTimer, .delete fallbackTimer] ?_).mpr ?_).1 (_, _) (.tail _ (.head _))
  · intro op hop
    simp only [List.mem_cons, List.not_mem_nil, or_false] at hop
    rcases hop with rfl | rfl | rfl | rfl
    · trivial
    · exact ⟨by decide, by decide, by decide, by decide⟩
    · trivial
    · trivial
  · intro x hx
    simp only [visits, List.mem_cons, List.not_mem_nil, or_false] at hx
    rcases hx with rfl | rfl | rfl | rfl
    · trivial
    · exact Or.inr ⟨by decide, by decide⟩
    · exact ⟨by decide, by decide⟩
    · exact ⟨by decide, by decide⟩

/-- One nanosecond less than a second is a million microseconds, which is refused; and any
timer can be deleted, which disarms the one there is and lets a second one be created. -/
theorem timers_misbehave :
    (step strict ⟨true, off⟩ (.settime fallbackTimer 0 ⟨0, 0, 0, 999999999⟩ false)).2.handed =
        some ⟨0, 0, 0, 1000000⟩ ∧
      (step strict ⟨true, off⟩ (.settime fallbackTimer 0 ⟨0, 0, 0, 999999999⟩ false)).2.ret.toBool = false ∧
      (step strict ⟨true, ⟨0, 0, 5, 0⟩⟩ (.delete 3)).1 = ⟨false, off⟩ ∧
      (step strict ⟨true, ⟨0, 0, 5, 0⟩⟩ (.delete 3)).2.ret.toBool = true ∧
      timers strict 0 init [.create none, .delete 3, .create none] = 2 := by
  refine ⟨by decide, by decide, by decide, by decide, by decide⟩

end ApeShim.Timer
