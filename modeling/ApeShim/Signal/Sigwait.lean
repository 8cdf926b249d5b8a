import ApeShim.Signal.Sigaction

/-!
`__ape_shim_sigwait` of `shim/signal.c` on a host other than Linux: any number
of threads that arm the defaulted signals of their sets one by one, block, and
put SIG_DFL back one by one, with `sigaction` calls of the program anywhere in
between. Signals are the host's numbers. The host's `sigaction` is one step; it
refuses only signals that cannot be caught.
-/

namespace ApeShim.Signal
open Trace

/-- What the kernel holds for a signal: something of the program's, or
`sigwait_noop`. -/
inductive Held
  | own (d : Disposition)
  | noop
  deriving DecidableEq, Repr

/-- `sigismember` on a `sigset_t` of one word. -/
def sigismember (set : BitVec 64) (sig : Nat) : Bool := set.getLsbD (sig - 1)

/-- Where a thread stands in `__ape_shim_sigwait`. -/
inductive WaitPhase
  | idle
  /-- about to look at signal `i` -/
  | arming (set : BitVec 64) (i : Nat) (defaulted : BitVec 64)
  /-- signal `i` was found at SIG_DFL -/
  | checked (set : BitVec 64) (i : Nat) (defaulted : BitVec 64)
  /-- inside the host's `sigwait` -/
  | waiting (set defaulted : BitVec 64)
  /-- about to restore signal `i` if its bit is set -/
  | restoring (i : Nat) (defaulted : BitVec 64)
  deriving DecidableEq, Repr

structure WaitState where
  held : Nat → Held
  phase : Nat → WaitPhase

inductive WaitLabel
  | enter (t : Nat) (set : BitVec 64)
  /-- `sigaction(s, NULL, &old)`, which may be refused -/
  | check (t : Nat) (refused : Bool)
  | arm (t : Nat) (refused : Bool)
  | block (t : Nat)
  | wake (t : Nat)
  | restore (t : Nat)
  /-- the program sets a disposition -/
  | sigaction (sig : Nat) (d : Disposition)

inductive WaitObs
  | entered (t : Nat)
  | set (sig : Nat) (d : Disposition)
  deriving DecidableEq

namespace WaitState

def goto (s : WaitState) (t : Nat) (p : WaitPhase) : WaitState :=
  { s with phase := Function.update s.phase t p }

def hold (s : WaitState) (sig : Nat) (h : Held) : WaitState :=
  { s with held := Function.update s.held sig h }

@[simp] theorem goto_held (s : WaitState) (t : Nat) (p : WaitPhase) : (s.goto t p).held = s.held := rfl
@[simp] theorem goto_phase (s : WaitState) (t u : Nat) (p : WaitPhase) :
    (s.goto t p).phase u = if u = t then p else s.phase u := by
  simp only [goto, Function.update_apply]
@[simp] theorem hold_held (s : WaitState) (sig x : Nat) (h : Held) :
    (s.hold sig h).held x = if x = sig then h else s.held x := by
  simp only [hold, Function.update_apply]

end WaitState

/-- Both loops run `for (int s = 1; s < 64; s++)`. -/
def waitStep (catchable : Nat → Bool) (s : WaitState) :
    WaitLabel → Option (WaitState × List WaitObs)
  | .enter t set =>
      match s.phase t with
      | .idle => some (s.goto t (.arming set 1 0), [.entered t])
      | _ => none
  | .check t refused =>
      match s.phase t with
      | .arming set i df =>
          if i < 64 then
            if !sigismember set i then some (s.goto t (.arming set (i + 1) df), [])
            else if refused then
              if catchable i then none else some (s.goto t (.arming set (i + 1) df), [])
            else if s.held i ≠ .own .dfl then some (s.goto t (.arming set (i + 1) df), [])
            else some (s.goto t (.checked set i df), [])
          else none
      | _ => none
  | .arm t refused =>
      match s.phase t with
      | .checked set i df =>
          if refused then
            if catchable i then none else some (s.goto t (.arming set (i + 1) df), [])
          else some ((s.hold i .noop).goto t (.arming set (i + 1) (df ||| BitVec.twoPow 64 i)), [])
      | _ => none
  | .block t =>
      match s.phase t with
      | .arming set i df => if i < 64 then none else some (s.goto t (.waiting set df), [])
      | _ => none
  | .wake t =>
      match s.phase t with
      | .waiting _ df => some (s.goto t (if df = 0 then .idle else .restoring 1 df), [])
      | _ => none
  | .restore t =>
      match s.phase t with
      | .restoring i df =>
          if i < 64 then
            if df.getLsbD i then some ((s.hold i (.own .dfl)).goto t (.restoring (i + 1) df), [])
            else some (s.goto t (.restoring (i + 1) df), [])
          else some (s.goto t .idle, [])
      | _ => none
  | .sigaction sig d =>
      if catchable sig then some (s.hold sig (.own d), [.set sig d]) else none

def waitMachine (catchable : Nat → Bool) (start : Nat → Disposition) :
    Machine WaitState WaitLabel WaitObs :=
  ⟨⟨fun sig => .own (start sig), fun _ => .idle⟩, waitStep catchable⟩

/-! ## What is claimed of the waits -/

/-- The disposition the program last asked for. -/
def wanted (start : Nat → Disposition) (sig : Nat) : List WaitObs → Disposition
  | [] => start sig
  | .set sig' d :: older => if sig' = sig then d else wanted start sig older
  | .entered _ :: older => wanted start sig older

/-- While `t` is blocked, no catchable signal it waits for is at SIG_DFL unless
the program put it there since `t` came in; with nobody in `sigwait`, every
signal has the disposition the program last asked for. -/
structure WaitsSound (catchable : Nat → Bool) (start : Nat → Disposition) (s : WaitState)
    (log : List WaitObs) : Prop where
  blocked : ∀ t set df, s.phase t = .waiting set df → ∀ sig, 1 ≤ sig → sig ≤ 64 →
    sigismember set sig = true → catchable sig = true →
    s.held sig ≠ .own .dfl ∨ Since (· = .entered t) (· = .set sig .dfl) log
  settled : (∀ t, s.phase t = .idle) → ∀ sig, s.held sig = .own (wanted start sig log)

/-- The thread counts on `sig` not being at SIG_DFL. -/
def WaitPhase.covers (sig : Nat) : WaitPhase → Prop
  | .arming set i _ | .checked set i _ => sig < i ∧ sigismember set sig = true
  | .waiting set _ => sigismember set sig = true
  | _ => False

/-- The program's own handler is not under a thread that arms or restores a
signal, no signal is restored under another thread that counts on it, and
nobody blocks on signal 64 while that is at SIG_DFL. -/
def Separate (catchable : Nat → Bool) (s : WaitState) : WaitLabel → Prop
  | .arm t false => ∀ set i df, s.phase t = .checked set i df →
      s.held i = .own .dfl ∨ s.held i = .noop
  | .restore t => ∀ i df, s.phase t = .restoring i df → i < 64 → df.getLsbD i = true →
      (s.held i = .own .dfl ∨ s.held i = .noop) ∧ ∀ u, u ≠ t → ¬ (s.phase u).covers i
  | .block t => ∀ set i df, s.phase t = .arming set i df → sigismember set 64 = true →
      catchable 64 = true → s.held 64 ≠ .own .dfl
  | _ => True

/-! ## The invariant -/

/-- The thread has put `sigwait_noop` on `sig` and has not restored it. -/
def WaitPhase.armed (sig : Nat) : WaitPhase → Prop
  | .arming _ _ df | .checked _ _ df | .waiting _ df => sig < 64 ∧ df.getLsbD sig = true
  | .restoring i df => i ≤ sig ∧ sig < 64 ∧ df.getLsbD sig = true
  | .idle => False

def WaitPhase.Bounded : WaitPhase → Prop
  | .idle => True
  | .arming _ i df => 1 ≤ i ∧ df.getLsbD 0 = false
  | .checked _ i df => 1 ≤ i ∧ i < 64 ∧ df.getLsbD 0 = false
  | .waiting _ df => df.getLsbD 0 = false
  | .restoring i _ => 1 ≤ i

structure WaitInv (catchable : Nat → Bool) (start : Nat → Disposition) (s : WaitState)
    (log : List WaitObs) : Prop where
  covered : ∀ t sig, 1 ≤ sig → sig ≤ 64 → catchable sig = true → (s.phase t).covers sig →
    s.held sig ≠ .own .dfl ∨ Since (· = .entered t) (· = .set sig .dfl) log
  held : ∀ sig, s.held sig = .own (wanted start sig log) ∨
    (s.held sig = .noop ∧ wanted start sig log = .dfl ∧ ∃ t, (s.phase t).armed sig)
  bounded : ∀ t, (s.phase t).Bounded

section Step

variable {catchable : Nat → Bool} {start : Nat → Disposition} {s : WaitState} {log : List WaitObs}

/-- A thread moves on without touching a disposition: it may only come to count
on signals that are not at SIG_DFL, and keeps what it has armed. -/
theorem waitInv_goto (hinv : WaitInv catchable start s log) {t : Nat} {p : WaitPhase}
    (hcov : ∀ sig, 1 ≤ sig → sig ≤ 64 → catchable sig = true → p.covers sig →
      (s.phase t).covers sig ∨ s.held sig ≠ .own .dfl)
    (harmed : ∀ sig, (s.phase t).armed sig → p.armed sig) (hb : p.Bounded) :
    WaitInv catchable start (s.goto t p) log := by
  refine ⟨fun u sig h1 h64 hc hu => ?_, fun sig => ?_, fun u => ?_⟩
  · rw [WaitState.goto_held]
    rw [WaitState.goto_phase] at hu
    split at hu
    · rename_i hut
      subst hut
      rcases hcov sig h1 h64 hc hu with hold | hne
      · exact hinv.covered u sig h1 h64 hc hold
      · exact Or.inl hne
    · exact hinv.covered u sig h1 h64 hc hu
  · rw [WaitState.goto_held]
    rcases hinv.held sig with h | ⟨hn, hw, u, hu⟩
    · exact Or.inl h
    · refine Or.inr ⟨hn, hw, u, ?_⟩
      rw [WaitState.goto_phase]
      split
      · rename_i hut
        subst hut
        exact harmed sig hu
      · exact hu
  · rw [WaitState.goto_phase]
    split
    · exact hb
    · exact hinv.bounded u

theorem waitInv_enter (hinv : WaitInv catchable start s log) {t : Nat} (set : BitVec 64)
    (hidle : s.phase t = .idle) :
    WaitInv catchable start (s.goto t (.arming set 1 0)) (.entered t :: log) := by
  refine ⟨fun u sig h1 h64 hc hu => ?_, fun sig => ?_, fun u => ?_⟩
  · rw [WaitState.goto_phase] at hu
    split at hu
    · have hlt : sig < 1 := hu.1
      omega
    · rename_i hne
      rcases hinv.covered u sig h1 h64 hc hu with h | h
      · exact Or.inl h
      · refine Or.inr (h.append [.entered t] ?_)
        simpa using fun he => hne he.symm
  · rcases hinv.held sig with h | ⟨hn, hw, u, hu⟩
    · exact Or.inl h
    · refine Or.inr ⟨hn, hw, u, ?_⟩
      rw [WaitState.goto_phase, if_neg]
      · exact hu
      · rintro rfl
        rw [hidle] at hu
        exact hu
  · rw [WaitState.goto_phase]
    split
    · exact ⟨le_refl _, by simp⟩
    · exact hinv.bounded u

theorem waitInv_sigaction (hinv : WaitInv catchable start s log) (sig : Nat) (d : Disposition) :
    WaitInv catchable start (s.hold sig (.own d)) (.set sig d :: log) := by
  refine ⟨fun u x h1 h64 hc hu => ?_, fun x => ?_, fun u => hinv.bounded u⟩
  · rw [WaitState.hold_held]
    split
    · rename_i hx
      subst hx
      by_cases hd : d = .dfl
      · exact Or.inr (Or.inl (by rw [hd]))
      · exact Or.inl (by simpa using hd)
    · rcases hinv.covered u x h1 h64 hc hu with h | h
      · exact Or.inl h
      · exact Or.inr (h.append [.set sig d] (by simp))
  · rw [WaitState.hold_held]
    simp only [wanted]
    by_cases hx : x = sig
    · simp [hx]
    · have hne : ¬ sig = x := fun he => hx he.symm
      simp only [hx, hne, ↓reduceIte]
      exact hinv.held x

/-- Where nothing of the program's is in the way, it wants SIG_DFL. -/
theorem WaitInv.wanted_dfl (hinv : WaitInv catchable start s log) {sig : Nat}
    (h : s.held sig = .own .dfl ∨ s.held sig = .noop) : wanted start sig log = .dfl := by
  rcases hinv.held sig with hown | ⟨-, hw, -⟩
  · rcases h with hs | hs
    · rw [hs] at hown
      exact (Held.own.inj hown).symm
    · rw [hs] at hown
      cases hown
  · exact hw

/-- Past `i`, a thread counts on what it counted on before, and on `i`. -/
theorem covers_succ {set df : BitVec 64} {i sig : Nat} (hsi : sig ≠ i)
    (h : (WaitPhase.arming set (i + 1) df).covers sig) :
    sig < i ∧ sigismember set sig = true :=
  ⟨Nat.lt_of_le_of_ne (Nat.le_of_lt_succ h.1) hsi, h.2⟩

theorem waitInv_arm (hinv : WaitInv catchable start s log) {t : Nat} {set df : BitVec 64} {i : Nat}
    (hp : s.phase t = .checked set i df) (hsep : s.held i = .own .dfl ∨ s.held i = .noop) :
    WaitInv catchable start
      ((s.hold i .noop).goto t (.arming set (i + 1) (df ||| BitVec.twoPow 64 i))) log := by
  have hb := hinv.bounded t
  rw [hp] at hb
  obtain ⟨hi, hi64, hbit⟩ := hb
  refine ⟨fun u sig h1 h64 hc hu => ?_, fun sig => ?_, fun u => ?_⟩
  · simp only [WaitState.goto_held, WaitState.hold_held]
    split
    · exact Or.inl (by simp)
    · rename_i hsi
      refine hinv.covered u sig h1 h64 hc ?_
      rw [WaitState.goto_phase] at hu
      split at hu
      · rename_i hut
        subst hut
        rw [hp]
        exact covers_succ hsi hu
      · exact hu
  · simp only [WaitState.goto_held, WaitState.hold_held]
    split
    · rename_i hsi
      subst hsi
      refine Or.inr ⟨rfl, hinv.wanted_dfl hsep, t, ?_⟩
      simp [WaitPhase.armed, hi64]
    · rename_i hsi
      rcases hinv.held sig with h | ⟨hn, hw, u, hu⟩
      · exact Or.inl h
      · refine Or.inr ⟨hn, hw, u, ?_⟩
        simp only [WaitState.goto_phase]
        split
        · rename_i hut
          subst hut
          rw [hp] at hu
          exact ⟨hu.1, by simp [hu.2]⟩
        · exact hu
  · simp only [WaitState.goto_phase]
    split
    · refine ⟨by omega, ?_⟩
      rw [BitVec.getLsbD_or, hbit, Bool.false_or, BitVec.getLsbD_twoPow]
      simp
      omega
    · exact hinv.bounded u

theorem waitInv_restore (hinv : WaitInv catchable start s log) {t i : Nat} {df : BitVec 64}
    (hp : s.phase t = .restoring i df) (hsep : s.held i = .own .dfl ∨ s.held i = .noop)
    (hothers : ∀ u, u ≠ t → ¬ (s.phase u).covers i) :
    WaitInv catchable start ((s.hold i (.own .dfl)).goto t (.restoring (i + 1) df)) log := by
  refine ⟨fun u sig h1 h64 hc hu => ?_, fun sig => ?_, fun u => ?_⟩
  · rw [WaitState.goto_phase] at hu
    split at hu
    · exact hu.elim
    · rename_i hut
      simp only [WaitState.goto_held, WaitState.hold_held]
      rw [if_neg]
      · exact hinv.covered u sig h1 h64 hc hu
      · rintro rfl
        exact hothers u hut hu
  · simp only [WaitState.goto_held, WaitState.hold_held]
    split
    · rename_i hsi
      subst hsi
      exact Or.inl (by rw [hinv.wanted_dfl hsep])
    · rename_i hsi
      rcases hinv.held sig with h | ⟨hn, hwd, u, hu⟩
      · exact Or.inl h
      · refine Or.inr ⟨hn, hwd, u, ?_⟩
        simp only [WaitState.goto_phase]
        split
        · rename_i hut
          subst hut
          rw [hp] at hu
          exact ⟨Nat.lt_of_le_of_ne hu.1 fun he => hsi he.symm, hu.2⟩
        · exact hu
  · simp only [WaitState.goto_phase]
    split
    · exact Nat.le_add_left 1 i
    · exact hinv.bounded u

theorem waitInv_check (hinv : WaitInv catchable start s log) {t : Nat} {refused : Bool}
    {s' : WaitState} {out : List WaitObs}
    (h : waitStep catchable s (.check t refused) = some (s', out)) :
    WaitInv catchable start s' (out ++ log) := by
  cases hp : s.phase t with
  | arming set i df =>
    have hb := hinv.bounded t
    rw [hp] at hb
    -- the thread goes past `i`, which it need not or cannot arm
    have hpast : (sigismember set i = true → catchable i = true → s.held i ≠ .own .dfl) →
        WaitInv catchable start (s.goto t (.arming set (i + 1) df)) log := by
      intro hskip
      refine waitInv_goto hinv (fun sig _ _ hc hcov => ?_) (fun sig ha => ?_) ⟨by omega, hb.2⟩
      · by_cases hsi : sig = i
        · subst hsi
          exact Or.inr (hskip hcov.2 hc)
        · rw [hp]
          exact Or.inl (covers_succ hsi hcov)
      · rw [hp] at ha
        exact ha
    simp only [waitStep, hp] at h
    split at h
    · rename_i hi64
      split at h
      · rename_i hmem
        cases h
        exact hpast fun hm => by simp [hm] at hmem
      · split at h
        · split at h
          · cases h
          · rename_i hc
            cases h
            exact hpast fun _ hc' => absurd hc' hc
        · split at h
          · rename_i hne
            cases h
            exact hpast fun _ _ => hne
          · cases h
            refine waitInv_goto hinv (fun sig _ _ _ hcov => ?_) (fun sig ha => ?_) ⟨hb.1, hi64, hb.2⟩
            · rw [hp]
              exact Or.inl hcov
            · rw [hp] at ha
              exact ha
    · cases h
  | _ => simp only [waitStep, hp] at h; cases h

theorem waitInv_block (hinv : WaitInv catchable start s log) {t : Nat} {s' : WaitState}
    {out : List WaitObs} (hsep : Separate catchable s (.block t))
    (h : waitStep catchable s (.block t) = some (s', out)) :
    WaitInv catchable start s' (out ++ log) := by
  cases hp : s.phase t with
  | arming set i df =>
    have hb := hinv.bounded t
    rw [hp] at hb
    simp only [waitStep, hp] at h
    split at h
    · cases h
    · rename_i hi
      cases h
      refine waitInv_goto hinv (fun sig _ h64 hc hcov => ?_) (fun sig ha => ?_) hb.2
      · -- the loop has seen everything below 64
        by_cases hlast : sig = 64
        · subst hlast
          exact Or.inr (hsep set i df hp hcov hc)
        · rw [hp]
          exact Or.inl ⟨by omega, hcov⟩
      · rw [hp] at ha
        exact ha
  | _ => simp only [waitStep, hp] at h; cases h

theorem waitInv_wake (hinv : WaitInv catchable start s log) {t : Nat} {s' : WaitState}
    {out : List WaitObs} (h : waitStep catchable s (.wake t) = some (s', out)) :
    WaitInv catchable start s' (out ++ log) := by
  cases hp : s.phase t with
  | waiting set df =>
    have hb := hinv.bounded t
    rw [hp] at hb
    simp only [waitStep, hp] at h
    cases h
    split
    · rename_i hzero
      refine waitInv_goto hinv (fun sig _ _ _ hcov => hcov.elim) (fun sig ha => ?_) trivial
      rw [hp, hzero] at ha
      simp [WaitPhase.armed] at ha
    · refine waitInv_goto hinv (fun sig _ _ _ hcov => hcov.elim) (fun sig ha => ?_) (le_refl 1)
      rw [hp] at ha
      refine ⟨Nat.one_le_iff_ne_zero.mpr ?_, ha.1, ha.2⟩
      rintro rfl
      have hset : df.getLsbD 0 = true := ha.2
      rw [show df.getLsbD 0 = false from hb] at hset
      cases hset
  | _ => simp only [waitStep, hp] at h; cases h

theorem waitInv_step (hinv : WaitInv catchable start s log) {l : WaitLabel} {s' : WaitState}
    {out : List WaitObs} (hsep : Separate catchable s l)
    (h : waitStep catchable s l = some (s', out)) : WaitInv catchable start s' (out ++ log) := by
  cases l with
  | enter t set =>
    cases hp : s.phase t with
    | idle =>
      simp only [waitStep, hp] at h
      cases h
      exact waitInv_enter hinv set hp
    | _ => simp only [waitStep, hp] at h; cases h
  | check t refused => exact waitInv_check hinv h
  | arm t refused =>
    cases hp : s.phase t with
    | checked set i df =>
      have hb := hinv.bounded t
      rw [hp] at hb
      simp only [waitStep, hp] at h
      cases refused with
      | true =>
        simp only [↓reduceIte] at h
        split at h
        · cases h
        · rename_i hc
          cases h
          refine waitInv_goto hinv (fun sig _ _ hcs hcov => ?_) (fun sig ha => ?_)
            ⟨by omega, hb.2.2⟩
          · by_cases hsi : sig = i
            · subst hsi
              exact absurd hcs hc
            · rw [hp]
              exact Or.inl (covers_succ hsi hcov)
          · rw [hp] at ha
            exact ha
      | false =>
        simp only [Bool.false_eq_true, ↓reduceIte] at h
        cases h
        exact waitInv_arm hinv hp (hsep set i df hp)
    | _ => simp only [waitStep, hp] at h; cases h
  | block t => exact waitInv_block hinv hsep h
  | wake t => exact waitInv_wake hinv h
  | restore t =>
    cases hp : s.phase t with
    | restoring i df =>
      simp only [waitStep, hp] at h
      split at h
      · rename_i hi
        split at h
        · rename_i hbit
          cases h
          obtain ⟨hheld, hothers⟩ := hsep i df hp hi hbit
          exact waitInv_restore hinv hp hheld hothers
        · rename_i hbit
          cases h
          refine waitInv_goto hinv (fun sig _ _ _ hcov => hcov.elim) (fun sig ha => ?_)
            (Nat.le_add_left 1 i)
          rw [hp] at ha
          refine ⟨Nat.lt_of_le_of_ne ha.1 ?_, ha.2⟩
          rintro rfl
          exact hbit ha.2.2
      · rename_i hi
        cases h
        refine waitInv_goto hinv (fun sig _ _ _ hcov => hcov.elim) (fun sig ha => ?_) trivial
        rw [hp] at ha
        have hle : i ≤ sig := ha.1
        have hlt : sig < 64 := ha.2.1
        omega
    | _ => simp only [waitStep, hp] at h; cases h
  | sigaction sig d =>
    simp only [waitStep] at h
    split at h
    · cases h
      exact waitInv_sigaction hinv sig d
    · cases h

end Step

/-- **Waits keep dispositions** in every run in which waiters stay out of each
other's and the program's way: a blocked thread's signals are not at SIG_DFL,
and when nobody waits, every signal is as the program last set it. -/
theorem sigwait_sound_when_separate (catchable : Nat → Bool) (start : Nat → Disposition)
    {s : WaitState} {log : List WaitObs}
    (h : (waitMachine catchable start).Run (Separate catchable) s log) :
    WaitsSound catchable start s log := by
  have hinv : WaitInv catchable start s log := by
    refine h.invariant (P := WaitInv catchable start) ?_ fun s log l s' out hinv hok hs =>
      waitInv_step hinv hok hs
    exact ⟨fun t sig _ _ _ hcov => hcov.elim, fun sig => Or.inl rfl, fun t => trivial⟩
  refine ⟨fun t set df hp sig h1 h64 hmem hc => ?_, fun hidle sig => ?_⟩
  · refine hinv.covered t sig h1 h64 hc ?_
    rw [hp]
    exact hmem
  · rcases hinv.held sig with hh | ⟨-, -, t, ht⟩
    · exact hh
    · rw [hidle t] at ht
      exact ht.elim

/-- The steps of thread `t` from its entry until it blocks on the one signal
`sig`, which it finds at SIG_DFL. -/
def waitFor (t sig : Nat) : List WaitLabel :=
  .enter t (BitVec.twoPow 64 (sig - 1)) :: List.replicate sig (.check t false) ++
    .arm t false :: List.replicate (63 - sig) (.check t false) ++ [.block t]

/-- One thread blocks on signal 17 alone. -/
theorem sigwait_sound_when_separate_child :
    ∃ s log, (waitMachine (fun _ => true) fun _ => .dfl).Run (Separate fun _ => true) s log ∧
      s.phase 0 = .waiting (BitVec.twoPow 64 16) (BitVec.twoPow 64 17) ∧
      WaitsSound (fun _ => true) (fun _ => .dfl) s log := by
  have hstart : (waitMachine (fun _ => true) fun _ => .dfl).Run (Separate fun _ => true) _ [] := .start
  obtain ⟨s, log, hrun, hp⟩ := hstart.extend
    (fun s l => match l with
      | .arm t _ => match s.phase t with | .checked _ i _ => s.held i = .own .dfl | _ => false
      | .block t => match s.phase t with | .arming set _ _ => !sigismember set 64 | _ => false
      | .restore _ => false
      | _ => true)
    (fun s l hl => by
      cases l with
      | arm t refused =>
        cases refused with
        | true => trivial
        | false =>
          intro set i df hp
          simp only [hp, decide_eq_true_eq] at hl
          exact Or.inl hl
      | block t =>
        intro set i df hp hm
        simp [hp, hm] at hl
      | restore t => cases hl
      | _ => trivial)
    (waitFor 0 17)
    (fun s _ => decide (s.phase 0 = .waiting (BitVec.twoPow 64 16) (BitVec.twoPow 64 17))) (by decide)
  exact ⟨s, log, hrun, of_decide_eq_true hp, sigwait_sound_when_separate _ _ hrun⟩

/-- Two threads wait for 17; the first to return puts it back to SIG_DFL under
the second. And a handler the program installs during a wait is gone after it. -/
theorem waiters_undo_each_other :
    (∃ s log, (waitMachine (fun _ => true) fun _ => .dfl).Run anyStep s log ∧
      s.phase 1 = .waiting (BitVec.twoPow 64 16) 0 ∧ s.held 17 = .own .dfl ∧
      ¬ WaitsSound (fun _ => true) (fun _ => .dfl) s log) ∧
    ∃ s log, (waitMachine (fun _ => true) fun _ => .dfl).Run anyStep s log ∧
      s.phase 0 = .idle ∧ wanted (fun _ => .dfl) 17 log = .user 7 ∧ s.held 17 = .own .dfl := by
  have hstart : (waitMachine (fun _ => true) fun _ => .dfl).Run anyStep _ [] := .start
  constructor
  · obtain ⟨s, log, hrun, hp⟩ := hstart.extend (fun _ _ => true) (fun _ _ _ => trivial)
      (waitFor 0 17 ++ .enter 1 (BitVec.twoPow 64 16) :: List.replicate 63 (.check 1 false) ++
        .block 1 :: .wake 0 :: List.replicate 17 (.restore 0))
      (fun s log => decide (s.phase 1 = .waiting (BitVec.twoPow 64 16) 0 ∧ s.held 17 = .own .dfl ∧
        log = [.entered 1, .entered 0])) (by decide)
    obtain ⟨hphase, hheld, rfl⟩ := of_decide_eq_true hp
    refine ⟨s, _, hrun, hphase, hheld, fun hsound => ?_⟩
    rcases hsound.blocked 1 _ _ hphase 17 (by decide) (by decide) (by decide) rfl with hne | hsince
    · exact hne hheld
    · simp [Since] at hsince
  · obtain ⟨s, log, hrun, hp⟩ := hstart.extend (fun _ _ => true) (fun _ _ _ => trivial)
      (waitFor 0 17 ++ .sigaction 17 (.user 7) :: .wake 0 :: List.replicate 64 (.restore 0))
      (fun s log => decide (s.phase 0 = .idle ∧ wanted (fun _ => .dfl) 17 log = .user 7 ∧
        s.held 17 = .own .dfl)) (by decide)
    exact ⟨s, log, hrun, of_decide_eq_true hp⟩

end ApeShim.Signal
