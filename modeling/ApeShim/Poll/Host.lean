import ApeShim.Epoll.Wait
import ApeShim.Lib.Naming

/-!
What `shim/poll.c` stands on: the `POLL*` names in the two numberings, and the host's own
`ppoll`, clock and sleep, as an oracle over a state of its own.
-/

namespace ApeShim.Poll
open Flags
open Epoll (PollFd)

/-! ## Names -/

/-- The names of `SHIM_POLL_TABLE`. -/
inductive PollBit
  | POLLIN | POLLPRI | POLLOUT | POLLERR | POLLHUP | POLLNVAL
  | POLLRDNORM | POLLRDBAND | POLLWRNORM | POLLWRBAND | POLLRDHUP
  deriving DecidableEq

namespace PollBit

/-- In the order of the table. -/
def all : List PollBit :=
  [POLLIN, POLLPRI, POLLOUT, POLLERR, POLLHUP, POLLNVAL, POLLRDNORM, POLLRDBAND, POLLWRNORM,
    POLLWRBAND, POLLRDHUP]

/-- `SHIM_LIN_*` is two to this power. -/
def bit : PollBit → Nat
  | POLLIN => 0
  | POLLPRI => 1
  | POLLOUT => 2
  | POLLERR => 3
  | POLLHUP => 4
  | POLLNVAL => 5
  | POLLRDNORM => 6
  | POLLRDBAND => 7
  | POLLWRNORM => 8
  | POLLWRBAND => 9
  | POLLRDHUP => 13

end PollBit

/-- `kPolls`, on the Linux side. -/
def kPolls : Naming PollBit 16 where
  names := PollBit.all
  bit := PollBit.bit
  complete n := by cases n <;> decide
  bound n := by cases n <;> decide
  inj a b h := by
    revert h
    cases a <;> cases b <;> decide

/-- The host's values of the names. -/
abbrev HostBits := PollBit → BitVec 16

def evToHost (k : HostBits) (lin : BitVec 16) : BitVec 16 := kPolls.toHost k lin

def evToLinux (k : HostBits) (host : BitVec 16) : BitVec 16 := kPolls.toLin k host

/-- Reported whether asked for or not. -/
def PollBit.always : List PollBit := [.POLLERR, .POLLHUP, .POLLNVAL]

/-! ## The oracle -/

structure Timespec where
  sec : Int
  nsec : Int
  deriving DecidableEq

namespace Timespec

def zero : Timespec := ⟨0, 0⟩

/-- The milliseconds of the timeout, a part of one counted whole. -/
def ceilMs (t : Timespec) : Int := t.sec * 1000 + (t.nsec + 999999) / 1000000

/-- What a caller may pass. -/
def Accepted (t : Timespec) : Prop := 0 ≤ t.sec ∧ 0 ≤ t.nsec ∧ t.nsec < 1000000000

/-- A number of milliseconds as C divides it. -/
def ofMs (ms : Int) : Timespec := ⟨ms.tdiv 1000, ms.tmod 1000 * 1000000⟩

theorem ofMs_accepted {ms : Int} (h : 0 ≤ ms) : (ofMs ms).Accepted := by
  have hdiv := Int.tdiv_eq_ediv_of_nonneg (b := 1000) h
  have hmod := Int.tmod_eq_emod_of_nonneg (b := 1000) h
  simp only [Accepted, ofMs, hdiv, hmod]
  omega

theorem ceilMs_ofMs {ms : Int} (h : 0 ≤ ms) : (ofMs ms).ceilMs = ms := by
  have hdiv := Int.tdiv_eq_ediv_of_nonneg (b := 1000) h
  have hmod := Int.tmod_eq_emod_of_nonneg (b := 1000) h
  simp only [ceilMs, ofMs, hdiv, hmod]
  omega

end Timespec

inductive PollErr
  | einval
  | eintr
  | other (code : Nat)
  deriving DecidableEq

/-- What a poll returns: a count, or `-1` and `errno`. -/
inductive Ret
  | ok (n : Nat)
  | fail (e : PollErr)
  deriving DecidableEq

/-- A host poll's result, with the `revents` it leaves in each entry. -/
structure Answer where
  ret : Ret
  revents : Nat → BitVec 16

/-- `revents` written over the entries of an array. -/
def fill (fds : List PollFd) (r : Nat → BitVec 16) : List PollFd :=
  fds.mapIdx fun i p => { p with revents := r i }

/-- The host's calls; `nanosleep` is told microseconds and answers whether it slept them. -/
structure Cosmo (σ : Type) where
  ppoll : σ → List PollFd → Option Timespec → Answer × σ
  nowMs : σ → Int × σ
  nanosleep : σ → Int → Bool × σ
  windows : Bool
  polledMs : Nat

/-- A poll that has returned, with the array and the host as it leaves them. -/
structure Polled (σ : Type) where
  ret : Ret
  fds : List PollFd
  state : σ

namespace Cosmo

variable {σ : Type} (h : Cosmo σ)

/-- One call of the host's `ppoll` on an array. -/
def once (s : σ) (fds : List PollFd) (t : Option Timespec) : Polled σ :=
  let a := h.ppoll s fds t
  ⟨a.1.ret, fill fds a.1.revents, a.2⟩

/-- The host states a call passes through. -/
inductive Later : σ → σ → Prop
  | refl (s : σ) : Later s s
  | ppoll {s s' : σ} (fds : List PollFd) (t : Option Timespec) (hs : Later s s') :
      Later s (h.ppoll s' fds t).2
  | nowMs {s s' : σ} (hs : Later s s') : Later s (h.nowMs s').2
  | nanosleep {s s' : σ} (us : Int) (hs : Later s s') : Later s (h.nanosleep s' us).2

variable {h}

theorem Later.trans {s s' s'' : σ} (h₁ : h.Later s s') (h₂ : h.Later s' s'') : h.Later s s'' := by
  induction h₂ with
  | refl => exact h₁
  | ppoll fds t _ ih => exact ih.ppoll fds t
  | nowMs _ ih => exact ih.nowMs
  | nanosleep us _ ih => exact ih.nanosleep us

theorem Later.once {s s' : σ} (hs : h.Later s s') (fds : List PollFd) (t : Option Timespec) :
    h.Later s (h.once s' fds t).state := hs.ppoll fds t

end Cosmo

/-! ## Arrays -/

/-- The same descriptors asked about the same events. -/
def SameQuery (fds fds' : List PollFd) : Prop :=
  List.Forall₂ (fun p q => p.fd = q.fd ∧ p.events = q.events) fds fds'

namespace SameQuery

theorem refl (fds : List PollFd) : SameQuery fds fds :=
  List.forall₂_same.mpr fun _ _ => ⟨rfl, rfl⟩

theorem symm {as bs : List PollFd} (h : SameQuery as bs) : SameQuery bs as :=
  List.Forall₂.flip (h.imp fun _ _ hab => ⟨hab.1.symm, hab.2.symm⟩)

theorem trans {as bs cs : List PollFd} (h₁ : SameQuery as bs) (h₂ : SameQuery bs cs) :
    SameQuery as cs := by
  induction h₁ generalizing cs with
  | nil => exact h₂
  | cons hab _ ih =>
    cases h₂ with
    | cons hbc hrest => exact .cons ⟨hab.1.trans hbc.1, hab.2.trans hbc.2⟩ (ih hrest)

theorem length {as bs : List PollFd} (h : SameQuery as bs) : as.length = bs.length :=
  List.Forall₂.length_eq h

theorem append {as bs cs ds : List PollFd} (h₁ : SameQuery as bs) (h₂ : SameQuery cs ds) :
    SameQuery (as ++ cs) (bs ++ ds) := List.rel_append h₁ h₂

end SameQuery

@[simp] theorem fill_length (fds : List PollFd) (r : Nat → BitVec 16) :
    (fill fds r).length = fds.length := by simp [fill]

theorem fill_sameQuery (fds : List PollFd) (r : Nat → BitVec 16) : SameQuery fds (fill fds r) := by
  rw [SameQuery, List.forall₂_iff_get]
  refine ⟨(fill_length fds r).symm, ?_⟩
  intro i hi hi'
  simp [fill]

theorem once_sameQuery {σ : Type} (h : Cosmo σ) (s : σ) (fds : List PollFd)
    (t : Option Timespec) : SameQuery fds (h.once s fds t).fds := fill_sameQuery fds _

/-- The entries a poll found ready. -/
def readyCount (fds : List PollFd) : Nat := fds.countP fun p => p.revents != 0#16

@[simp] theorem readyCount_nil : readyCount [] = 0 := rfl

@[simp] theorem readyCount_append (as bs : List PollFd) :
    readyCount (as ++ bs) = readyCount as + readyCount bs := List.countP_append

end ApeShim.Poll
