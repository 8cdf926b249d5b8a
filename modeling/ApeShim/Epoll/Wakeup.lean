import ApeShim.Epoll.Threads

/-!
No change of the interest list is missed by a parked waiter. The waiter drains
the wake pipe only between a poll and the next snapshot, and every change is
followed by a wake byte, so a snapshot that has gone stale leaves a byte in the
pipe or a thread that still owes one.
-/

namespace ApeShim.Epoll
open Flags Keyed Trace

/-- One thread at a time inside `epoll_wait`. -/
def Solo (s : State) : Label → Prop
  | .enter _ _ _ => ∀ t, s.phase t = .idle
  | _ => True

/-- The array a thread is blocked on. -/
def Phase.parked : Phase → Option PollArray
  | .polling _ p | .chunked _ p => some p
  | _ => none

/-- Armed direction, epoll bit asking for it, and the host bits to poll. -/
def directionBits (k : Host) : List (BitVec 32 × BitVec 32 × BitVec 16) :=
  [(ARM_IN, EPOLLIN, k.POLLIN), (ARM_IN, EPOLLPRI, k.POLLPRI), (ARM_IN, EPOLLRDHUP, k.POLLRDHUP),
    (ARM_OUT, EPOLLOUT, k.POLLOUT)]

/-- The array asks for the host bit `i` of the descriptor `fd`. -/
def PollArray.asks (p : PollArray) (fd : Int) (i : Nat) : Prop :=
  ∃ q ∈ p.slots, q.fd = fd ∧ q.events.getLsbD i = true

/-- Some descriptor or direction that is registered and armed is not polled:
a registered direction that is armed lacks one of its host bits, or a plain
level-triggered descriptor, always armed, has no slot. -/
def Misses (k : Host) (p : PollArray) (s : Interest) : Prop :=
  ∃ e ∈ s.entries,
    (∃ x ∈ directionBits k, has (effectiveArmed k e) x.1 = true ∧ has e.events x.2.1 = true ∧
      ∃ i, x.2.2.getLsbD i = true ∧ ¬ p.asks e.fd i) ∨
    ((has e.events (EPOLLET ||| EPOLLONESHOT) = false ∨ k.ltForced = true) ∧
      ∀ q ∈ p.slots, q.fd ≠ e.fd)

/-- Every slot a snapshot would have now is in the array, with its bits. -/
def Covers (k : Host) (p : PollArray) (s : Interest) : Prop :=
  ∀ e ∈ s.entries, ∀ q, snapSlot k e = some q →
    ∃ q' ∈ p.slots, q'.fd = e.fd ∧ ∀ i, q.events.getLsbD i = true → q'.events.getLsbD i = true

theorem covers_snapshot (k : Host) (handle : Int) (s : Interest) :
    Covers k (snapshot k handle s) s := by
  intro e he q hq
  exact ⟨q, List.mem_filterMap.mpr ⟨e, he, hq⟩, (snapSlot_eq_some hq).1, fun _ h => h⟩

theorem getLsbD_raise {w : Nat} (b : Bool) (m e : BitVec w) (i : Nat) :
    (raise b m e).getLsbD i = (e.getLsbD i || (b && m.getLsbD i)) := by
  cases b <;> simp [raise]

/-- An armed direction that is asked for puts its host bits in the poll. -/
theorem epollToPoll_asks {k : Host} {e armed : BitVec 32} {x : BitVec 32 × BitVec 32 × BitVec 16}
    (hx : x ∈ directionBits k) (ha : has armed x.1 = true) (he : has e x.2.1 = true) {i : Nat}
    (hi : x.2.2.getLsbD i = true) : (epollToPoll k e armed).getLsbD i = true := by
  simp only [directionBits, List.mem_cons, List.not_mem_nil, or_false] at hx
  rcases hx with rfl | rfl | rfl | rfl <;> simp_all [epollToPoll, getLsbD_raise]

theorem not_misses_of_covers {k : Host} {p : PollArray} {s : Interest} (h : Covers k p s) :
    ¬ Misses k p s := by
  rintro ⟨e, he, ⟨x, hx, ha, hev, i, hi, hno⟩ | ⟨hplain, hno⟩⟩
  · have hbit := epollToPoll_asks hx ha hev hi
    have hnz : epollToPoll k e.events (effectiveArmed k e) ≠ 0#16 := by
      intro hz
      rw [hz] at hbit
      simp at hbit
    have hslot : snapSlot k e =
        some ⟨e.fd, epollToPoll k e.events (effectiveArmed k e), 0#16⟩ := by
      simp only [snapSlot]
      rw [if_neg (fun hz => hnz hz.1)]
    obtain ⟨q', hq', hfd, hsub⟩ := h e he _ hslot
    exact hno ⟨q', hq', hfd, hsub i hbit⟩
  · have hslot : snapSlot k e =
        some ⟨e.fd, epollToPoll k e.events (effectiveArmed k e), 0#16⟩ := by
      simp only [snapSlot]
      rw [if_neg]
      rintro ⟨-, hev, hlt⟩
      rcases hplain with h1 | h1 <;> simp_all
    obtain ⟨q', hq', hfd, -⟩ := h e he _ hslot
    exact hno q' hq' hfd

/-! ## The invariant -/

/-- At most one thread waits, and a stale array has a wakeup on its way. -/
structure WakeInv (k : Host) (s : State) : Prop where
  alone : ∀ t t', s.phase t ≠ .idle → s.phase t' ≠ .idle → t = t'
  parked : ∀ t p, (s.phase t).parked = some p →
    Covers k p s.interest ∨ 0 < s.pipe ∨ 0 < s.kicks

theorem parked_ne_idle {ph : Phase} {p : PollArray} (h : ph.parked = some p) : ph ≠ .idle := by
  rintro rfl
  cases h

theorem afterPoll_parked {k : Host} {direct expired : Bool} {w : WaitCall} {p q : PollArray}
    {o : PollOutcome} (h : (afterPoll k direct w p o expired).parked = some q) : q = p := by
  unfold afterPoll at h
  repeat' split at h
  all_goals simp_all [Phase.parked]

@[simp] theorem afterDeliver_parked (w : WaitCall) (done : Bool) :
    (afterDeliver w done).parked = none := by
  cases done <;> rfl

/-- A waiting thread writes no wake byte, and is parked after its step only on
the array it was parked on or on a fresh snapshot. -/
theorem waitStep_parked {c : Config} {s s' : State} {t : Nat} {a : Label} {out : List Obs}
    (h : waitStep c s t a (s.phase t) = some (s', out)) {p : PollArray}
    (hp : (s'.phase t).parked = some p) :
    s'.interest = s.interest ∧
      (p = snapshot c.k c.handle s.interest ∨
        (s.phase t).parked = some p ∧ s'.pipe = s.pipe ∧ s'.kicks = s.kicks) := by
  generalize hph : s.phase t = ph at h
  cases ph with
  | top w =>
    simp only [waitStep] at h
    repeat' split at h
    all_goals cases h
    · exact ⟨rfl, Or.inl (by simpa [Phase.parked, eq_comm] using hp)⟩
    · simp [Phase.parked] at hp
  | polling w p₀ =>
    simp only [waitStep] at h
    split at h <;> cases h
    simp only [State.goto_phase, ↓reduceIte] at hp
    rw [afterPoll_parked hp]
    exact ⟨rfl, Or.inr ⟨rfl, rfl, rfl⟩⟩
  | chunked w p₀ =>
    simp only [waitStep] at h
    split at h <;> cases h
    · simp only [State.goto_phase, ↓reduceIte] at hp
      rw [afterPoll_parked hp]
      exact ⟨rfl, Or.inr ⟨rfl, rfl, rfl⟩⟩
    · exact ⟨rfl, Or.inr ⟨by rwa [hph] at hp, rfl, rfl⟩⟩
  | probing w todo n =>
    cases todo <;> simp only [waitStep] at h <;> repeat' split at h
    all_goals cases h
    all_goals simp [Phase.parked] at hp
  | matching w p₀ rc =>
    simp only [waitStep] at h
    split at h <;> cases h
    simp at hp
  | _ =>
    simp only [waitStep] at h
    repeat' split at h
    all_goals cases h
    all_goals simp [hph, Phase.parked] at hp

/-- A thread that takes a step was inside `epoll_wait`, or is entering it alone. -/
theorem others_idle {c : Config} {s s' : State} {t : Nat} {a : Label} {out : List Obs}
    (hinv : WakeInv c.k s) (hsolo : Solo s a)
    (h : waitStep c s t a (s.phase t) = some (s', out)) : ∀ t', t' ≠ t → s.phase t' = .idle := by
  intro t' hne
  by_cases hidle : s.phase t = .idle
  · rw [hidle] at h
    cases a <;> simp only [waitStep] at h <;> first | cases h | exact hsolo t'
  · by_contra hbusy
    exact hne (hinv.alone t' t hbusy hidle)

theorem wakeInv_wait {c : Config} {s s' : State} {t : Nat} {a : Label} {out : List Obs}
    (hinv : WakeInv c.k s) (hsolo : Solo s a)
    (h : waitStep c s t a (s.phase t) = some (s', out)) : WakeInv c.k s' := by
  have hidle := others_idle hinv hsolo h
  have honly : ∀ t', s'.phase t' ≠ .idle → t' = t := by
    intro t' hb
    by_contra hne
    exact hb ((waitStep_others h t' hne).trans (hidle t' hne))
  refine ⟨fun t₁ t₂ h₁ h₂ => (honly t₁ h₁).trans (honly t₂ h₂).symm, fun t' p hp => ?_⟩
  obtain rfl := honly t' (parked_ne_idle hp)
  obtain ⟨hi, rfl | ⟨hbefore, hpipe, hkicks⟩⟩ := waitStep_parked h hp
  · exact Or.inl (hi ▸ covers_snapshot _ _ _)
  · rw [hi, hpipe, hkicks]
    exact hinv.parked _ p hbefore

theorem rearmSet_silent {i : Interest} {fd : Int} {bits : BitVec 32}
    (h : (rearmSet i fd bits).2 = false) : (rearmSet i fd bits).1 = i := by
  unfold rearmSet at h ⊢
  cases he : i.findEntry fd with
  | none => rfl
  | some e =>
    simp only [he] at h ⊢
    split_ifs at h ⊢
    · rfl
    · rfl

theorem wakeInv_step {c : Config} (hcap : 0 < c.pipeCap) {s s' : State} {a : Label} {out : List Obs}
    (hinv : WakeInv c.k s) (hsolo : Solo s a) (h : step c s a = some (s', out)) :
    WakeInv c.k s' := by
  unfold step at h
  split at h
  · exact wakeInv_wait hinv hsolo h
  · split at h
    · -- a failed `epoll_ctl` changes nothing, a successful one owes a byte
      split at h
      · cases h; exact hinv
      · cases h; exact ⟨hinv.alone, fun _ _ _ => Or.inr (Or.inr (by simp))⟩
    · rename_i fd bits _
      cases h
      refine ⟨hinv.alone, fun t p hp => ?_⟩
      cases hk : (rearmSet s.interest fd bits).2 with
      | true => exact Or.inr (Or.inr (by simp [State.rearm, hk]))
      | false =>
        simp only [State.rearm, hk, Bool.false_eq_true, ↓reduceIte, rearmSet_silent hk]
        exact hinv.parked t p hp
    · -- the byte lands, or the pipe is full already
      split at h
      · cases h
      · cases h
        refine ⟨hinv.alone, fun _ _ _ => Or.inr (Or.inl ?_)⟩
        dsimp only
        split <;> omega
    · split at h <;> cases h
      exact ⟨hinv.alone, hinv.parked⟩
    · split at h <;> cases h
      · exact hinv
      · exact ⟨hinv.alone, hinv.parked⟩
    · cases h

theorem wakeInv_run {c : Config} (hcap : 0 < c.pipeCap) {s : State} {log : List Obs}
    (h : (machine c).Run Solo s log) : WakeInv c.k s := by
  refine h.invariant (P := fun s _ => WakeInv c.k s) ?_ ?_
  · refine ⟨fun t t' ht => absurd rfl ht, fun t p hp => ?_⟩
    cases hp
  · intro s log a s' out hinv hsolo hs
    exact wakeInv_step hcap hinv hsolo hs

/-- **No change is missed.** While the waiter is blocked, directly or in
`poll_chunked`, on an array that misses a registered and armed descriptor or
direction, the wake pipe holds a byte or some thread still owes its write. -/
theorem parked_waiter_has_wakeup (c : Config) (hcap : 0 < c.pipeCap) {s : State} {log : List Obs}
    (h : (machine c).Run Solo s log) {t : Nat} {w : WaitCall} {p : PollArray}
    (hph : s.phase t = .polling w p ∨ s.phase t = .chunked w p)
    (hmiss : Misses c.k p s.interest) : 0 < s.pipe ∨ 0 < s.kicks := by
  have hp : (s.phase t).parked = some p := by
    rcases hph with hph | hph <;> simp [hph, Phase.parked]
  rcases (wakeInv_run hcap h).parked t p hp with hc | hwake
  · exact absurd hmiss (not_misses_of_covers hc)
  · exact hwake

/-- A descriptor added while the waiter is parked on an empty array. -/
theorem parked_waiter_has_wakeup_after_add :
    ∃ s log w p, (machine ⟨plainHost, 3, 16⟩).Run Solo s log ∧ s.phase 0 = .polling w p ∧
      Misses plainHost p s.interest ∧ (0 < s.pipe ∨ 0 < s.kicks) := by
  have hstart : (machine ⟨plainHost, 3, 16⟩).Run Solo State.init [] := .start
  have hentered := Machine.Run.next (a := Label.enter 0 1 true) hstart (fun _ => rfl) rfl
  have hparked := Machine.Run.next (a := Label.snap 0 true) hentered trivial rfl
  have hadded := Machine.Run.next (a := Label.ctl 3 .add 5 (some ⟨EPOLLIN ||| EPOLLET, 7⟩) true)
    hparked trivial rfl
  have hmiss : Misses plainHost (snapshot plainHost 3 Interest.empty)
      (Interest.empty.push (freshEntry 5 ⟨EPOLLIN ||| EPOLLET, 7⟩) 8 rfl (by decide)) :=
    ⟨_, List.mem_singleton.mpr rfl, Or.inl ⟨(ARM_IN, EPOLLIN, 1#16), by simp [directionBits, plainHost],
      by decide, by decide, 0, by decide, by rintro ⟨q, hq, -⟩; cases hq⟩⟩
  exact ⟨_, _, ⟨1, true, 0⟩, _, hadded, rfl, hmiss,
    parked_waiter_has_wakeup _ (by decide) hadded (t := 0) (Or.inl rfl) hmiss⟩

end ApeShim.Epoll
