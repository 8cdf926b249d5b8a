import ApeShim.Poll.Wait

/-!
What a call of the wait returns, traced back to the host: its array and its count are one
answer's, or one sweep's, given after the call began and before it returned.
-/

namespace ApeShim.Poll
open Epoll (PollFd)

theorem bind_eq_ok {α β : Type} {x : Except Stuck α} {f : α → Except Stuck β} {b : β} :
    (x >>= f) = .ok b ↔ ∃ a, x = .ok a ∧ f a = .ok b := by
  cases x with
  | error e => simp [bind, Except.bind]
  | ok a => simp [bind, Except.bind]

section

variable {σ : Type} {h : Cosmo σ}

/-! ## One answer -/

/-- The result of a wait on `fds` begun in `s₀` is one answer of the host's, the count
apart where a nap after it was interrupted. -/
def Answered (h : Cosmo σ) (s₀ : σ) (fds : List PollFd) (q : Polled σ) : Prop :=
  ∃ s fds' t, h.Later s₀ s ∧ SameQuery fds fds' ∧ h.Later (h.once s fds' t).state q.state ∧
    q.fds = (h.once s fds' t).fds ∧
    (q.ret = (h.once s fds' t).ret ∨ (h.once s fds' t).ret = .ok 0 ∧ q.ret = .fail .eintr)

namespace Answered

variable {s₀ s s' : σ} {fds fds' : List PollFd} {r : Ret}

theorem of_once (hs : h.Later s₀ s) (hq : SameQuery fds fds') (t : Option Timespec) :
    Answered h s₀ fds (h.once s fds' t) :=
  ⟨s, fds', t, hs, hq, .refl _, rfl, .inl rfl⟩

theorem later {q : Polled σ} (hq : Answered h s₀ fds q) : h.Later s₀ q.state := by
  obtain ⟨s, fds', t, hs, _, hlate, _⟩ := hq
  exact (hs.once fds' t).trans hlate

theorem sameQuery {q : Polled σ} (hq : Answered h s₀ fds q) : SameQuery fds q.fds := by
  obtain ⟨s, fds', t, _, hsame, _, hfds, _⟩ := hq
  rw [hfds]
  exact hsame.trans (once_sameQuery h s fds' t)

theorem again {q : Polled σ} (hq : Answered h s₀ fds q) (hs : h.Later q.state s)
    (t : Option Timespec) : Answered h s₀ fds (h.once s q.fds t) :=
  of_once (hq.later.trans hs) hq.sameQuery t

/-- A quiet answer stands while the clock is read or a nap is cut short. -/
theorem settle {q : Polled σ} (hq : Answered h s₀ fds q) (hquiet : q.ret = .ok 0)
    (hs : h.Later q.state s) (hr : r = .ok 0 ∨ r = .fail .eintr) :
    Answered h s₀ fds ⟨r, q.fds, s⟩ := by
  obtain ⟨u, asked, t, hu, hsame, hlate, hfds, hret⟩ := hq
  have hzero : (h.once u asked t).ret = .ok 0 := by
    rcases hret with hret | ⟨_, hret⟩
    · exact hret.symm.trans hquiet
    · rw [hquiet] at hret
      cases hret
  refine ⟨u, asked, t, hu, hsame, hlate.trans hs, hfds, ?_⟩
  rcases hr with rfl | rfl
  · exact .inl hzero.symm
  · exact .inr ⟨hzero, rfl⟩

end Answered

/-- The ways out of the first phase, and the way round. -/
theorem polledPhase_succ {budget start deadline : Int} {fuel : Nat} {s : σ} {fds : List PollFd}
    {q : Polled σ} (hrun : polledPhase h budget start deadline (fuel + 1) s fds = .ok q) :
    let now := h.nowMs s
    let nap := h.nanosleep now.2 (napUs (now.1 - start))
    let p := h.once nap.2 fds (some .zero)
    let late := h.nowMs p.state
    q = handOff h now.2 fds deadline ∨
      q = ⟨.fail .eintr, fds, nap.2⟩ ∨
      (p.ret ≠ .ok 0 ∧ q = p) ∨
      (p.ret = .ok 0 ∧ 0 ≤ deadline ∧ deadline ≤ late.1 ∧ q = ⟨.ok 0, p.fds, late.2⟩) ∨
      (p.ret = .ok 0 ∧ ∃ s', (s' = p.state ∨ s' = late.2) ∧
        polledPhase h budget start deadline fuel s' p.fds = .ok q) := by
  intro now nap p late
  simp only [polledPhase] at hrun
  split_ifs at hrun with hbudget hnap hready hdeadline hdue
  · cases hrun
    exact .inl rfl
  · cases hrun
    exact .inr (.inl rfl)
  · cases hrun
    exact .inr (.inr (.inl ⟨hready, rfl⟩))
  · cases hrun
    exact .inr (.inr (.inr (.inl ⟨not_not.mp hready, hdeadline, hdue, rfl⟩)))
  · exact .inr (.inr (.inr (.inr ⟨not_not.mp hready, _, .inr rfl, hrun⟩)))
  · exact .inr (.inr (.inr (.inr ⟨not_not.mp hready, _, .inl rfl, hrun⟩)))

theorem handOff_answered {s₀ s : σ} {fds : List PollFd} {deadline : Int} {q : Polled σ}
    (hq : Answered h s₀ fds q) (hquiet : q.ret = .ok 0) (hs : h.Later q.state s) :
    Answered h s₀ fds (handOff h s q.fds deadline) := by
  simp only [handOff]
  split_ifs
  · exact hq.again hs none
  · exact hq.settle hquiet hs.nowMs (.inl rfl)
  · exact hq.again hs.nowMs _

theorem polledPhase_answered {budget start deadline : Int} {fuel : Nat} {s₀ s : σ}
    {fds : List PollFd} {p q : Polled σ} (hp : Answered h s₀ fds p) (hquiet : p.ret = .ok 0)
    (hs : h.Later p.state s) (hrun : polledPhase h budget start deadline fuel s p.fds = .ok q) :
    Answered h s₀ fds q := by
  induction fuel generalizing s p with
  | zero => cases hrun
  | succ fuel ih =>
    have hnap := hs.nowMs.nanosleep (napUs ((h.nowMs s).1 - start))
    have hnext := hp.again hnap (some .zero)
    rcases polledPhase_succ hrun with rfl | rfl | ⟨_, rfl⟩ | ⟨hret, _, _, rfl⟩ | ⟨hret, s', hs', hrest⟩
    · exact handOff_answered hp hquiet hs.nowMs
    · exact hp.settle hquiet hnap (.inr rfl)
    · exact hnext
    · exact hnext.settle hret (Cosmo.Later.refl _).nowMs (.inl rfl)
    · refine ih hnext hret ?_ hrest
      rcases hs' with rfl | rfl
      · exact .refl _
      · exact (Cosmo.Later.refl _).nowMs

theorem hostPpollInner_answered {fuel : Nat} {s : σ} {fds : List PollFd}
    {timeout : Option Timespec} {q : Polled σ}
    (hrun : hostPpollInner h fuel s fds timeout = .ok q) : Answered h s fds q := by
  simp only [hostPpollInner] at hrun
  have hfirst := fun t => Answered.of_once (h := h) (.refl s) (SameQuery.refl fds) t
  split_ifs at hrun with hdirect hready
  · cases hrun
    exact hfirst timeout
  · cases hrun
    exact hfirst _
  · obtain ⟨deadline, _, hphase⟩ := bind_eq_ok.mp hrun
    exact polledPhase_answered (hfirst _) (not_not.mp hready) (Cosmo.Later.refl _).nowMs hphase

/-! ## One sweep -/

theorem pieces_flatten (n : Nat) (fds : List PollFd) (hn : fds.length ≤ n) :
    (pieces n fds).flatten = fds := by
  induction n generalizing fds with
  | zero =>
    have hnil : fds = [] := List.length_eq_zero_iff.mp (by omega)
    rw [hnil, pieces, List.flatten_nil]
  | succ n ih =>
    cases fds with
    | nil => rfl
    | cons p ps =>
      have hrest : ((p :: ps).drop SHIM_POLL_CHUNK).length ≤ n := by
        rw [List.length_drop]
        simp only [List.length_cons, SHIM_POLL_CHUNK] at hn ⊢
        omega
      rw [pieces, List.flatten_cons, ih _ hrest, List.take_append_drop]

theorem pieces_length_le {n : Nat} {fds : List PollFd} :
    ∀ c ∈ pieces n fds, c.length ≤ SHIM_POLL_CHUNK := by
  induction n generalizing fds with
  | zero =>
    intro c hc
    simp [pieces] at hc
  | succ n ih =>
    cases fds with
    | nil =>
      intro c hc
      simp [pieces] at hc
    | cons p ps =>
      intro c hc
      rcases List.mem_cons.mp hc with rfl | hc
      · exact List.length_take_le _ _
      · exact ih c hc

theorem sweep_later (cs : List (List PollFd)) (s : σ) : h.Later s (sweep h s cs).state := by
  induction cs generalizing s with
  | nil => exact .refl s
  | cons c cs ih =>
    have hc : h.Later s (h.once s c (some .zero)).state := (Cosmo.Later.refl s).once c _
    simp only [sweep]
    split
    · exact hc
    · exact hc.trans (ih _)

theorem sweep_sameQuery (cs : List (List PollFd)) (s : σ) :
    SameQuery cs.flatten (sweep h s cs).fds := by
  induction cs generalizing s with
  | nil => exact .refl []
  | cons c cs ih =>
    simp only [sweep, List.flatten_cons]
    split
    · exact (once_sameQuery h s c _).append (.refl _)
    · exact (once_sameQuery h s c _).append (ih _)

/-- The result of a wait on `fds` begun in `s₀` is one sweep's, the count apart where the
nap after it failed. -/
def Swept (h : Cosmo σ) (s₀ : σ) (fds : List PollFd) (q : Polled σ) : Prop :=
  ∃ s fds', h.Later s₀ s ∧ SameQuery fds fds' ∧
    h.Later (sweep h s (pieces fds'.length fds')).state q.state ∧
    q.fds = (sweep h s (pieces fds'.length fds')).fds ∧
    (q.ret = (sweep h s (pieces fds'.length fds')).ret ∨ ∃ e, q.ret = .fail e)

/-- The ways out of the chunk loop, and the way round. -/
theorem chunkLoop_succ {nap : σ → List PollFd → Int → Option PollErr × σ} {deadline : Int}
    {fuel : Nat} {s : σ} {fds : List PollFd} {q : Polled σ}
    (hrun : chunkLoop h nap deadline (fuel + 1) s fds = .ok q) :
    let w := sweep h s (pieces fds.length fds)
    let late := h.nowMs w.state
    (w.ret ≠ .ok 0 ∧ q = w) ∨
      (w.ret = .ok 0 ∧ 0 ≤ deadline ∧ deadline ≤ late.1 ∧ q = ⟨.ok 0, w.fds, late.2⟩) ∨
      (w.ret = .ok 0 ∧ ∃ s' ms, (s' = w.state ∨ s' = late.2) ∧
        ((∃ e, q = ⟨.fail e, w.fds, (nap s' w.fds ms).2⟩) ∨
          chunkLoop h nap deadline fuel (nap s' w.fds ms).2 w.fds = .ok q)) := by
  intro w late
  simp only [chunkLoop] at hrun
  split_ifs at hrun with hready hdeadline hdue
  · cases hrun
    exact .inl ⟨hready, rfl⟩
  · cases hrun
    exact .inr (.inl ⟨not_not.mp hready, hdeadline, sub_nonpos.mp hdue, rfl⟩)
  · refine .inr (.inr ⟨not_not.mp hready, late.2, min (deadline - late.1) SHIM_POLL_NAP_MS,
      .inr rfl, ?_⟩)
    split at hrun
    · next e _ =>
      cases hrun
      exact .inl ⟨e, rfl⟩
    · exact .inr hrun
  · refine .inr (.inr ⟨not_not.mp hready, w.state, SHIM_POLL_NAP_MS, .inl rfl, ?_⟩)
    split at hrun
    · next e _ =>
      cases hrun
      exact .inl ⟨e, rfl⟩
    · exact .inr hrun

theorem sweep_pieces_sameQuery {s : σ} {fds : List PollFd} :
    SameQuery fds (sweep h s (pieces fds.length fds)).fds := by
  have hsame := sweep_sameQuery (h := h) (pieces fds.length fds) s
  rwa [pieces_flatten _ _ (Nat.le_refl _)] at hsame

theorem chunkLoop_swept {nap : σ → List PollFd → Int → Option PollErr × σ}
    (hnap : ∀ s fds ms, h.Later s (nap s fds ms).2) {deadline : Int} {fuel : Nat} {s₀ s : σ}
    {fds fds' : List PollFd} {q : Polled σ} (hs : h.Later s₀ s) (hq : SameQuery fds fds')
    (hrun : chunkLoop h nap deadline fuel s fds' = .ok q) : Swept h s₀ fds q := by
  induction fuel generalizing s fds' with
  | zero => cases hrun
  | succ fuel ih =>
    have hlate := hs.trans (sweep_later (h := h) (pieces fds'.length fds') s)
    rcases chunkLoop_succ hrun with ⟨_, rfl⟩ | ⟨hret, _, _, rfl⟩ | ⟨_, s', ms, hs', hrest⟩
    · exact ⟨s, fds', hs, hq, .refl _, rfl, .inl rfl⟩
    · exact ⟨s, fds', hs, hq, (Cosmo.Later.refl _).nowMs, rfl, .inl hret.symm⟩
    · have hread : h.Later (sweep h s (pieces fds'.length fds')).state s' := by
        rcases hs' with rfl | rfl
        · exact .refl _
        · exact (Cosmo.Later.refl _).nowMs
      have hslept := hread.trans (hnap s' (sweep h s (pieces fds'.length fds')).fds ms)
      rcases hrest with ⟨e, rfl⟩ | hrest
      · exact ⟨s, fds', hs, hq, hslept, rfl, .inr ⟨e, rfl⟩⟩
      · exact ih (hlate.trans hslept) (hq.trans sweep_pieces_sameQuery) hrest

theorem Swept.sameQuery {s₀ : σ} {fds : List PollFd} {q : Polled σ} (hq : Swept h s₀ fds q) :
    SameQuery fds q.fds := by
  obtain ⟨s, fds', _, hsame, _, hfds, _⟩ := hq
  rw [hfds]
  exact hsame.trans sweep_pieces_sameQuery

theorem sleepNap_later (s : σ) (fds : List PollFd) (ms : Int) :
    h.Later s (sleepNap h s fds ms).2 := (Cosmo.Later.refl s).nanosleep _

theorem wakerNap_later (k : HostBits) (s : σ) (fds : List PollFd) (ms : Int) :
    h.Later s (wakerNap h k s fds ms).2 := by
  cases fds with
  | nil => exact .refl s
  | cons w ws => exact (Cosmo.Later.refl s).once _ _

/-! ## The call before a retry -/

theorem foldTwins_sameQuery {pkt : Packets} {fds bs ts : List PollFd}
    (hlen : bs.length = fds.length) : SameQuery fds (foldTwins pkt fds bs ts) := by
  induction fds generalizing bs ts with
  | nil => exact .refl []
  | cons p ps ih =>
    cases bs with
    | nil => cases hlen
    | cons b bs =>
      have hlen' : bs.length = ps.length := by simpa using hlen
      simp only [foldTwins]
      split
      · exact .cons ⟨rfl, rfl⟩ (ih hlen')
      · exact .cons ⟨rfl, rfl⟩ (ih hlen')

/-- A wait moves the host forward and leaves the question as it was. -/
theorem hostPpoll_frame {pkt : Packets} {fuel : Nat} {s₀ : σ} {fds : List PollFd}
    {timeout : Option Timespec} {q : Polled σ}
    (hrun : hostPpoll h pkt fuel s₀ fds timeout = .ok q) :
    h.Later s₀ q.state ∧ SameQuery fds q.fds := by
  unfold hostPpoll at hrun
  split_ifs at hrun with hc
  · have hq := hostPpollInner_answered hrun
    exact ⟨hq.later, hq.sameQuery⟩
  · obtain ⟨big, hbig, hq⟩ := bind_eq_ok.mp hrun
    cases hq
    have hbq := hostPpollInner_answered hbig
    refine ⟨hbq.later, foldTwins_sameQuery ?_⟩
    have hlen := hbq.sameQuery.length
    rw [List.length_append] at hlen
    rw [List.length_take]
    omega

theorem retried_eq_ok {again : σ → List PollFd → Except Stuck (Polled σ)} {q q' : Polled σ}
    (hrun : retried again q = .ok q') :
    (q' = q ∧ ¬ (q.ret = .fail .einval ∧ SHIM_POLL_CHUNK < q.fds.length)) ∨
      (q.ret = .fail .einval ∧ SHIM_POLL_CHUNK < q.fds.length ∧ again q.state q.fds = .ok q') := by
  unfold retried at hrun
  split_ifs at hrun with hc
  · exact .inr ⟨hc.1, hc.2, hrun⟩
  · cases hrun
    exact .inl ⟨rfl, hc⟩

end

/-! ## The entry points -/

/-- The three ways into the wait. -/
inductive Entry
  | poll
  | ppoll
  | epollWait

namespace Entry

/-- What each takes for a timeout; milliseconds below zero are none. -/
def Timeout : Entry → Type
  | poll => Int
  | ppoll => Option Timespec
  | epollWait => Int

def run {σ : Type} (h : Cosmo σ) (k : HostBits) (pkt : Packets) (fuel : Nat) (s : σ)
    (fds : List PollFd) : (e : Entry) → e.Timeout → Except Stuck (Polled σ)
  | poll, ms => apeShimPoll h k pkt fuel s fds ms
  | ppoll, t => apeShimPpoll h k pkt fuel s fds t
  | epollWait, ms => emuWaitPoll h k pkt fuel s fds ms

def timespec : (e : Entry) → e.Timeout → Option Timespec
  | poll, ms => msTimespec ms
  | ppoll, t => t
  | epollWait, ms => msTimespec ms

/-- The array the host is asked about; the emulated wait has it in the host's bits. -/
def asked (k : HostBits) (fds : List PollFd) : Entry → List PollFd
  | poll | ppoll => toHostEvents k fds
  | epollWait => fds

def shown (k : HostBits) (x : BitVec 16) : Entry → BitVec 16
  | poll | ppoll => evToLinux k x
  | epollWait => x

/-- An entry as it is handed back. -/
def hand (k : HostBits) (e : Entry) (p : PollFd) : PollFd :=
  { p with events := e.shown k p.events, revents := e.shown k p.revents }

/-- The deadline of a retry. -/
def deadline {σ : Type} (h : Cosmo σ) (s : σ) : (e : Entry) → e.Timeout → Except Stuck (Int × σ)
  | poll, ms => pollDeadline h s ms
  | ppoll, t => ppollDeadline h s t
  | epollWait, ms => pollDeadline h s ms

/-- How a retry sleeps. -/
def nap {σ : Type} (h : Cosmo σ) (k : HostBits) :
    Entry → σ → List PollFd → Int → Option PollErr × σ
  | poll | ppoll => sleepNap h
  | epollWait => wakerNap h k

def atOnce : (e : Entry) → e.Timeout
  | poll => (0 : Int)
  | ppoll => some Timespec.zero
  | epollWait => (0 : Int)

end Entry

section

variable {σ : Type} {h : Cosmo σ} {k : HostBits} {e : Entry}

theorem Entry.nap_later (e : Entry) (s : σ) (fds : List PollFd) (ms : Int) :
    h.Later s (e.nap h k s fds ms).2 := by
  cases e with
  | poll => exact sleepNap_later s fds ms
  | ppoll => exact sleepNap_later s fds ms
  | epollWait => exact wakerNap_later k s fds ms

theorem pollDeadline_later {s : σ} {ms : Int} {d : Int × σ} (hd : pollDeadline h s ms = .ok d) :
    h.Later s d.2 := by
  unfold pollDeadline at hd
  split_ifs at hd
  · cases hd
    exact .refl s
  · obtain ⟨deadline, _, hd⟩ := bind_eq_ok.mp hd
    cases hd
    exact (Cosmo.Later.refl s).nowMs

theorem Entry.deadline_later {s : σ} {t : e.Timeout} {d : Int × σ}
    (hd : e.deadline h s t = .ok d) : h.Later s d.2 := by
  cases e with
  | poll => exact pollDeadline_later hd
  | epollWait => exact pollDeadline_later hd
  | ppoll =>
    cases t with
    | none =>
      cases hd
      exact .refl s
    | some t =>
      obtain ⟨deadline, _, hd⟩ := bind_eq_ok.mp hd
      cases hd
      exact (Cosmo.Later.refl s).nowMs

variable {pkt : Packets} {fuel : Nat} {s : σ} {fds : List PollFd} {t : e.Timeout} {q : Polled σ}

/-- The three calls are one, but for the bits they speak and how a retry sleeps. -/
theorem Entry.run_def :
    e.run h k pkt fuel s fds t =
      (hostPpoll h pkt fuel s (e.asked k fds) (e.timespec t) >>= fun q₁ =>
        retried (fun s fds => e.deadline h s t >>= fun d =>
          chunkLoop h (e.nap h k) d.1 fuel d.2 fds) q₁ >>= fun q₂ =>
        pure { q₂ with fds := q₂.fds.map (e.hand k) }) := by
  cases e with
  | poll => rfl
  | ppoll => rfl
  | epollWait =>
    have hkeep : ∀ x : Except Stuck (Polled σ),
        (x >>= fun q => pure { q with fds := q.fds.map (Entry.epollWait.hand k) }) = x := by
      have hid : Entry.epollWait.hand k = id := rfl
      intro x
      rw [hid]
      cases x with
      | error err => rfl
      | ok q => simp [bind, Except.bind, pure, Except.pure]
    simp only [hkeep]
    rfl

/-- A call is a wait, made again in chunks when it is refused. -/
theorem Entry.run_eq_ok (hrun : e.run h k pkt fuel s fds t = .ok q) :
    ∃ q₁ q₂, hostPpoll h pkt fuel s (e.asked k fds) (e.timespec t) = .ok q₁ ∧
      q = { q₂ with fds := q₂.fds.map (e.hand k) } ∧
      (q₂ = q₁ ∧ ¬ (q₁.ret = .fail .einval ∧ SHIM_POLL_CHUNK < q₁.fds.length) ∨
        q₁.ret = .fail .einval ∧ SHIM_POLL_CHUNK < q₁.fds.length ∧
          ∃ d, e.deadline h q₁.state t = .ok d ∧
            chunkLoop h (e.nap h k) d.1 fuel d.2 q₁.fds = .ok q₂) := by
  rw [Entry.run_def] at hrun
  obtain ⟨q₁, hq₁, hrest⟩ := bind_eq_ok.mp hrun
  obtain ⟨q₂, hq₂, hq⟩ := bind_eq_ok.mp hrest
  cases hq
  refine ⟨q₁, q₂, hq₁, rfl, ?_⟩
  rcases retried_eq_ok hq₂ with hdone | ⟨hret, hlen, hagain⟩
  · exact .inl hdone
  · exact .inr ⟨hret, hlen, bind_eq_ok.mp hagain⟩

theorem Entry.asked_length (e : Entry) (k : HostBits) (fds : List PollFd) :
    (e.asked k fds).length = fds.length := by
  cases e <;> simp [Entry.asked, toHostEvents]

/-- The retry's result is a sweep's. -/
theorem Entry.retry_swept {q₁ q₂ : Polled σ} {d : Int × σ}
    (hq₁ : hostPpoll h pkt fuel s (e.asked k fds) (e.timespec t) = .ok q₁)
    (hd : e.deadline h q₁.state t = .ok d)
    (hrun : chunkLoop h (e.nap h k) d.1 fuel d.2 q₁.fds = .ok q₂) :
    Swept h s (e.asked k fds) q₂ := by
  obtain ⟨hs, hsame⟩ := hostPpoll_frame hq₁
  exact chunkLoop_swept e.nap_later (hs.trans (Entry.deadline_later hd)) hsame hrun

end

end ApeShim.Poll
