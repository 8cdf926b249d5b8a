import ApeShim.Poll.Calls

/-!
Timeouts. A call that returns nothing ready has waited out its timeout on every way through
the wait but the retry of `__ape_shim_ppoll`, which drops the part of a millisecond; and a
deadline is a sum in a signed 64-bit integer.
-/

namespace ApeShim.Poll
open Epoll (PollFd)

/-- The largest signed 64-bit integer. -/
def int64Max : Int := 9223372036854775807

/-! ## The host's clock -/

/-- The host keeps time in milliseconds: its clock does not go back, a poll finds nothing
only after the whole of its timeout, and never without one. -/
structure Punctual {σ : Type} (h : Cosmo σ) (clock : σ → Int) : Prop where
  nonneg : ∀ s, 0 ≤ clock s
  reads : ∀ s, clock s ≤ (h.nowMs s).1 ∧ (h.nowMs s).1 ≤ clock (h.nowMs s).2
  polls : ∀ s fds t, clock s ≤ clock (h.once s fds t).state
  sleeps : ∀ s us, clock s ≤ clock (h.nanosleep s us).2
  counts : ∀ s fds t n, (h.once s fds t).ret = .ok n → readyCount (h.once s fds t).fds = n
  waits : ∀ s fds t, t.Accepted → (h.once s fds (some t)).ret = .ok 0 →
    clock s + t.ceilMs ≤ clock (h.once s fds (some t)).state
  blocks : ∀ s fds, (h.once s fds none).ret ≠ .ok 0

/-- The timeout with the part of a millisecond dropped. -/
def Timespec.floorMs (t : Timespec) : Int := t.sec * 1000 + t.nsec / 1000000

/-- A whole number of milliseconds. -/
def Timespec.Whole (t : Timespec) : Prop := t.nsec % 1000000 = 0

theorem Timespec.ceilMs_of_whole {t : Timespec} (h : t.Whole) : t.ceilMs = t.floorMs := by
  unfold ceilMs floorMs
  unfold Whole at h
  omega

theorem Timespec.floorMs_lt {t : Timespec} (h : ¬ t.Whole) : t.floorMs < t.ceilMs := by
  unfold ceilMs floorMs
  unfold Whole at h
  omega

theorem Timespec.floorMs_nonneg {t : Timespec} (h : t.Accepted) : 0 ≤ t.floorMs := by
  obtain ⟨hs, hn, _⟩ := h
  unfold floorMs
  omega

theorem Timespec.floorMs_ofMs {ms : Int} (h : 0 ≤ ms) : (ofMs ms).floorMs = ms := by
  have hdiv := Int.tdiv_eq_ediv_of_nonneg (b := 1000) h
  have hmod := Int.tmod_eq_emod_of_nonneg (b := 1000) h
  simp only [floorMs, ofMs, hdiv, hmod]
  omega

/-! ## The sums -/

theorem checked_of_nonneg {x : Int} (hx : 0 ≤ x) :
    checked x = if x ≤ int64Max then .ok x else .error .overflow := by
  have hfits : fits x ↔ x ≤ int64Max := by
    unfold fits int64Max
    omega
  simp only [checked, hfits]

/-- With nothing negative, every partial sum fits when the last one does. -/
theorem deadlineAfter_eq {now part : Int} {t : Timespec} (hnow : 0 ≤ now) (hs : 0 ≤ t.sec)
    (hp : 0 ≤ part) :
    deadlineAfter now t part =
      if now + (t.sec * 1000 + part) ≤ int64Max then .ok (now + (t.sec * 1000 + part))
      else .error .overflow := by
  have hassoc : now + t.sec * 1000 + part = now + (t.sec * 1000 + part) := by omega
  unfold deadlineAfter
  rw [checked_of_nonneg (by omega : 0 ≤ t.sec * 1000)]
  by_cases hms : t.sec * 1000 ≤ int64Max
  · rw [if_pos hms]
    change (checked (now + t.sec * 1000) >>= fun whole => checked (whole + part)) = _
    rw [checked_of_nonneg (by omega : 0 ≤ now + t.sec * 1000)]
    by_cases hwhole : now + t.sec * 1000 ≤ int64Max
    · rw [if_pos hwhole]
      change checked (now + t.sec * 1000 + part) = _
      rw [checked_of_nonneg (by omega), hassoc]
    · rw [if_neg hwhole, if_neg (by omega)]
      rfl
  · rw [if_neg hms, if_neg (by omega)]
    rfl

theorem innerDeadline_some {now : Int} {t : Timespec} (hnow : 0 ≤ now) (ht : t.Accepted) :
    innerDeadline now (some t) =
      if now + t.ceilMs ≤ int64Max then .ok (now + t.ceilMs) else .error .overflow := by
  obtain ⟨hs, hn, _⟩ := ht
  exact deadlineAfter_eq hnow hs (by omega)

/-! ## Never early -/

section

variable {σ : Type} {h : Cosmo σ} {clock : σ → Int}

theorem Punctual.later (hp : Punctual h clock) {s s' : σ} (hs : h.Later s s') :
    clock s ≤ clock s' := by
  induction hs with
  | refl => exact le_refl _
  | ppoll fds t _ ih => exact ih.trans (hp.polls _ fds t)
  | nowMs _ ih => exact ih.trans ((hp.reads _).1.trans (hp.reads _).2)
  | nanosleep us _ ih => exact ih.trans (hp.sleeps _ us)

theorem Punctual.read_nonneg (hp : Punctual h clock) (s : σ) : 0 ≤ (h.nowMs s).1 :=
  (hp.nonneg s).trans (hp.reads s).1

/-- A wait that hands over before its deadline returns nothing only after it. -/
theorem Punctual.handOff (hp : Punctual h clock) {s : σ} {fds : List PollFd} {deadline : Int}
    (hret : (Poll.handOff h s fds deadline).ret = .ok 0) :
    0 ≤ deadline ∧ deadline ≤ clock (Poll.handOff h s fds deadline).state := by
  have hread := (hp.reads s).2
  simp only [Poll.handOff] at hret ⊢
  split_ifs at hret ⊢ with hnone hleft
  · exact absurd hret (hp.blocks s fds)
  · exact ⟨by omega, le_trans (by omega) hread⟩
  · have hpos : 0 ≤ deadline - (h.nowMs s).1 := by omega
    have hwait := hp.waits (h.nowMs s).2 fds _ (Timespec.ofMs_accepted hpos) hret
    rw [Timespec.ceilMs_ofMs hpos] at hwait
    exact ⟨by omega, le_trans (by omega) hwait⟩

theorem Punctual.polledPhase (hp : Punctual h clock) {budget start deadline : Int} {fuel : Nat}
    {s : σ} {fds : List PollFd} {q : Polled σ}
    (hrun : Poll.polledPhase h budget start deadline fuel s fds = .ok q) (hret : q.ret = .ok 0) :
    0 ≤ deadline ∧ deadline ≤ clock q.state := by
  induction fuel generalizing s fds with
  | zero => cases hrun
  | succ fuel ih =>
    rcases polledPhase_succ hrun with rfl | rfl | ⟨hready, rfl⟩ | ⟨_, hpos, hdue, rfl⟩ |
      ⟨_, s', _, hrest⟩
    · exact hp.handOff hret
    · cases hret
    · exact absurd hret hready
    · exact ⟨hpos, hdue.trans (hp.reads _).2⟩
    · exact ih hrest

/-- A call returned nothing ready, and had a timeout that has passed. -/
def WaitedOut (clock : σ → Int) (T : Option Timespec) (s₀ s₁ : σ) : Prop :=
  ∃ t, T = some t ∧ clock s₀ + t.ceilMs ≤ clock s₁

theorem Punctual.inner (hp : Punctual h clock) {fuel : Nat} {s : σ} {fds : List PollFd}
    {T : Option Timespec} (hT : ∀ t, T = some t → t.Accepted) {q : Polled σ}
    (hrun : hostPpollInner h fuel s fds T = .ok q) (hret : q.ret = .ok 0) :
    WaitedOut clock T s q.state := by
  simp only [hostPpollInner] at hrun
  split_ifs at hrun with hdirect hready
  · cases hrun
    cases T with
    | none => exact absurd hret (hp.blocks s fds)
    | some t => exact ⟨t, rfl, hp.waits s fds t (hT t rfl) hret⟩
  · cases hrun
    exact absurd hret hready
  · obtain ⟨deadline, hdeadline, hphase⟩ := bind_eq_ok.mp hrun
    obtain ⟨hpos, hdue⟩ := hp.polledPhase hphase hret
    cases T with
    | none =>
      cases hdeadline
      omega
    | some t =>
      rw [innerDeadline_some (hp.read_nonneg _) (hT t rfl)] at hdeadline
      split_ifs at hdeadline
      cases hdeadline
      have hfirst := hp.polls s fds (some .zero)
      have hread := (hp.reads (h.once s fds (some .zero)).state).1
      exact ⟨t, rfl, by omega⟩

theorem readyCount_eq_zero {fds : List PollFd} :
    readyCount fds = 0 ↔ ∀ p ∈ fds, p.revents = 0#16 := by
  simp [readyCount, List.countP_eq_zero]

/-- Nothing is folded away. -/
theorem foldTwins_quiet {pkt : Packets} {fds bs ts : List PollFd} (hb : bs.length = fds.length)
    (ht : ts.length = (twins pkt fds).length)
    (hquiet : ∀ p ∈ foldTwins pkt fds bs ts, p.revents = 0#16) :
    (∀ p ∈ bs, p.revents = 0#16) ∧ ∀ p ∈ ts, p.revents = 0#16 := by
  induction fds generalizing bs ts with
  | nil =>
    rw [List.length_eq_zero_iff.mp hb, List.length_eq_zero_iff.mp ht]
    simp
  | cons p ps ih =>
    cases bs with
    | nil => cases hb
    | cons b bs =>
      have hb' : bs.length = ps.length := by simpa using hb
      cases hsec : pkt.packetSecondary p.fd with
      | none =>
        have ht' : ts.length = (twins pkt ps).length := by
          rw [ht]
          simp [twins, hsec]
        simp only [foldTwins, hsec, List.forall_mem_cons] at hquiet
        obtain ⟨hbs, hts⟩ := ih hb' ht' hquiet.2
        exact ⟨List.forall_mem_cons.mpr ⟨hquiet.1, hbs⟩, hts⟩
      | some fd6 =>
        simp only [twins, List.filterMap_cons, hsec, Option.map_some, List.length_cons] at ht
        cases ts with
        | nil => cases ht
        | cons t ts =>
          have ht' : ts.length = (twins pkt ps).length := by simpa [twins] using ht
          simp only [foldTwins, hsec, List.forall_mem_cons] at hquiet
          obtain ⟨hbs, hts⟩ := ih hb' ht' hquiet.2
          obtain ⟨hown, htwin⟩ := BitVec.or_eq_zero_iff.mp hquiet.1
          exact ⟨List.forall_mem_cons.mpr ⟨hown, hbs⟩, List.forall_mem_cons.mpr ⟨htwin, hts⟩⟩

theorem Punctual.hostPpoll (hp : Punctual h clock) {pkt : Packets} {fuel : Nat} {s : σ}
    {fds : List PollFd} {T : Option Timespec} (hT : ∀ t, T = some t → t.Accepted) {q : Polled σ}
    (hrun : Poll.hostPpoll h pkt fuel s fds T = .ok q) (hret : q.ret = .ok 0) :
    WaitedOut clock T s q.state := by
  unfold Poll.hostPpoll at hrun
  split_ifs at hrun with hc
  · exact hp.inner hT hrun hret
  · obtain ⟨big, hbig, hq⟩ := bind_eq_ok.mp hrun
    cases hq
    have hwait : big.ret = .ok 0 → WaitedOut clock T s big.state := hp.inner hT hbig
    refine hwait ?_
    have hbq := hostPpollInner_answered hbig
    cases hbret : big.ret with
    | fail e =>
      rw [hbret] at hret
      cases hret
    | ok n =>
      rw [hbret] at hret
      have hquiet := readyCount_eq_zero.mp (by injection hret)
      have hlen := hbq.sameQuery.length
      rw [List.length_append] at hlen
      obtain ⟨hfront, hback⟩ := foldTwins_quiet (by rw [List.length_take]; omega)
        (by rw [List.length_drop]; omega) hquiet
      have hall : readyCount big.fds = 0 := by
        rw [readyCount_eq_zero, ← List.take_append_drop fds.length big.fds]
        exact List.forall_mem_append.mpr ⟨hfront, hback⟩
      obtain ⟨u, asked, t, _, _, _, hfds, hr | ⟨_, hr⟩⟩ := hbq
      · rw [← hp.counts u asked t n (hr.symm.trans hbret), ← hfds, hall]
      · rw [hbret] at hr
        cases hr

theorem Punctual.chunkLoop (hp : Punctual h clock)
    {nap : σ → List PollFd → Int → Option PollErr × σ} {deadline : Int} {fuel : Nat} {s : σ}
    {fds : List PollFd} {q : Polled σ}
    (hrun : Poll.chunkLoop h nap deadline fuel s fds = .ok q) (hret : q.ret = .ok 0) :
    0 ≤ deadline ∧ deadline ≤ clock q.state := by
  induction fuel generalizing s fds with
  | zero => cases hrun
  | succ fuel ih =>
    rcases chunkLoop_succ hrun with ⟨hready, rfl⟩ | ⟨_, hpos, hdue, rfl⟩ |
      ⟨_, s', ms, _, ⟨e, rfl⟩ | hrest⟩
    · exact absurd hret hready
    · exact ⟨hpos, hdue.trans (hp.reads _).2⟩
    · cases hret
    · exact ih hrest

theorem msTimespec_eq_some {ms : Int} {T : Timespec} (h : msTimespec ms = some T) :
    0 ≤ ms ∧ T = Timespec.ofMs ms := by
  unfold msTimespec at h
  split_ifs at h with hneg
  cases h
  exact ⟨by omega, rfl⟩

theorem pollDeadline_eq {s : σ} {ms : Int} {T : Timespec} (hread : 0 ≤ (h.nowMs s).1)
    (heq : msTimespec ms = some T) :
    pollDeadline h s ms =
      if (h.nowMs s).1 + T.floorMs ≤ int64Max then
        .ok ((h.nowMs s).1 + T.floorMs, (h.nowMs s).2)
      else .error .overflow := by
  obtain ⟨hms, rfl⟩ := msTimespec_eq_some heq
  rw [pollDeadline, if_neg (by omega), Timespec.floorMs_ofMs hms]
  change (checked _ >>= fun deadline => _) = _
  rw [checked_of_nonneg (by omega)]
  split_ifs
  · rfl
  · rfl

/-- The deadline of a retry, a part of a millisecond being dropped. -/
theorem Entry.deadline_some {e : Entry} {t : e.Timeout} {s : σ} {T : Timespec}
    (hread : 0 ≤ (h.nowMs s).1) (hT : T.Accepted) (heq : e.timespec t = some T) :
    e.deadline h s t =
      if (h.nowMs s).1 + T.floorMs ≤ int64Max then
        .ok ((h.nowMs s).1 + T.floorMs, (h.nowMs s).2)
      else .error .overflow := by
  cases e with
  | poll => exact pollDeadline_eq hread heq
  | epollWait => exact pollDeadline_eq hread heq
  | ppoll =>
    obtain ⟨hs, hn, _⟩ := hT
    cases (heq : t = some T)
    change (deadlineAfter _ T _ >>= fun deadline => _) = _
    rw [deadlineAfter_eq hread hs (by omega)]
    unfold Timespec.floorMs
    split_ifs
    · rfl
    · rfl

theorem Entry.deadline_none {e : Entry} {t : e.Timeout} {s : σ} (heq : e.timespec t = none) :
    e.deadline h s t = .ok (-1, s) := by
  have hms : ∀ {ms : Int}, msTimespec ms = none → pollDeadline h s ms = .ok (-1, s) := by
    intro ms heq
    unfold msTimespec at heq
    split_ifs at heq with hneg
    exact if_pos hneg
  cases e with
  | poll => exact hms heq
  | epollWait => exact hms heq
  | ppoll =>
    cases (heq : t = none)
    rfl

/-- Any of the calls waits its timeout out, unless it is retried with one that is not whole. -/
theorem Punctual.run (hp : Punctual h clock) {k : HostBits} {pkt : Packets} {fuel : Nat} {s : σ}
    {fds : List PollFd} {e : Entry} {t : e.Timeout}
    (hT : ∀ T, e.timespec t = some T → T.Accepted)
    (hwhole : fds.length ≤ SHIM_POLL_CHUNK ∨
      ∀ T, e.timespec t = some T → T.Whole ∨ int64Max < T.floorMs) {q : Polled σ}
    (hrun : e.run h k pkt fuel s fds t = .ok q) (hret : q.ret = .ok 0) :
    WaitedOut clock (e.timespec t) s q.state := by
  obtain ⟨q₁, q₂, hq₁, rfl, hends⟩ := Entry.run_eq_ok hrun
  obtain ⟨hlater, hsame⟩ := hostPpoll_frame hq₁
  rcases hends with ⟨rfl, _⟩ | ⟨_, hlen, d, hd, hchunk⟩
  · have hwait : q₂.ret = .ok 0 → WaitedOut clock (e.timespec t) s q₂.state :=
      hp.hostPpoll hT hq₁
    exact hwait hret
  · obtain ⟨hpos, hdue⟩ := hp.chunkLoop hchunk hret
    cases heq : e.timespec t with
    | none =>
      rw [Entry.deadline_none heq] at hd
      cases hd
      omega
    | some T =>
      have hclock := (hp.reads q₁.state).1
      rw [Entry.deadline_some (hp.read_nonneg _) (hT T heq) heq] at hd
      split_ifs at hd with hmax
      cases hd
      have hnonneg := hp.nonneg q₁.state
      have hlate := hp.later hlater
      have hasked : fds.length = q₁.fds.length := by
        rw [← hsame.length, Entry.asked_length]
      rcases hwhole with hshort | hwhole
      · omega
      · rcases hwhole T heq with hwhole | hlong
        · refine ⟨T, rfl, ?_⟩
          rw [Timespec.ceilMs_of_whole hwhole]
          exact le_trans (by omega) hdue
        · omega

/-! ## Overflow -/

theorem bind_eq_error {α β : Type} {x : Except Stuck α} {f : α → Except Stuck β} {err : Stuck} :
    (x >>= f) = .error err ↔ x = .error err ∨ ∃ a, x = .ok a ∧ f a = .error err := by
  cases x with
  | error e => simp [bind, Except.bind]
  | ok a => simp [bind, Except.bind]

theorem polledPhase_ne_overflow {budget start deadline : Int} {fuel : Nat} {s : σ}
    {fds : List PollFd} : polledPhase h budget start deadline fuel s fds ≠ .error .overflow := by
  induction fuel generalizing s fds with
  | zero =>
    intro hrun
    cases hrun
  | succ fuel ih =>
    intro hrun
    simp only [polledPhase] at hrun
    split_ifs at hrun
    · exact ih hrun
    · exact ih hrun

theorem chunkLoop_ne_overflow {nap : σ → List PollFd → Int → Option PollErr × σ} {deadline : Int}
    {fuel : Nat} {s : σ} {fds : List PollFd} :
    chunkLoop h nap deadline fuel s fds ≠ .error .overflow := by
  induction fuel generalizing s fds with
  | zero =>
    intro hrun
    cases hrun
  | succ fuel ih =>
    intro hrun
    simp only [chunkLoop] at hrun
    split_ifs at hrun
    · split at hrun
      · cases hrun
      · exact ih hrun
    · split at hrun
      · cases hrun
      · exact ih hrun

end

/-- How long a host's waits are polled for first. -/
def Cosmo.budget {σ : Type} (h : Cosmo σ) : Nat := if h.windows then h.polledMs else 0

/-- The wait measures this timeout itself. -/
def Measured (budget : Nat) (fds : List PollFd) (t : Timespec) : Prop :=
  budget ≠ 0 ∧ fds ≠ [] ∧ t ≠ .zero

section

variable {σ : Type} {h : Cosmo σ} {clock : σ → Int}

theorem not_direct_iff {fds : List PollFd} {t : Timespec} :
    ¬ Direct h fds (some t) ↔ Measured h.budget fds t := by
  simp [Direct, Measured, Cosmo.budget]

theorem Punctual.inner_overflow (hp : Punctual h clock) {fuel : Nat} {s : σ} {fds : List PollFd}
    {T : Option Timespec} (hT : ∀ t, T = some t → t.Accepted)
    (hrun : hostPpollInner h fuel s fds T = .error .overflow) :
    ∃ t s', T = some t ∧ Measured h.budget fds t ∧ int64Max < (h.nowMs s').1 + t.ceilMs := by
  simp only [hostPpollInner] at hrun
  split_ifs at hrun with hdirect hready
  rcases bind_eq_error.mp hrun with hdeadline | ⟨deadline, _, hphase⟩
  · cases T with
    | none => cases hdeadline
    | some t =>
      rw [innerDeadline_some (hp.read_nonneg _) (hT t rfl)] at hdeadline
      split_ifs at hdeadline with hmax
      exact ⟨t, (h.once s fds (some .zero)).state, rfl, not_direct_iff.mp hdirect, by omega⟩
  · exact absurd hphase polledPhase_ne_overflow

theorem Punctual.hostPpoll_overflow (hp : Punctual h clock) {pkt : Packets} {fuel : Nat} {s : σ}
    {fds : List PollFd} {T : Option Timespec} (hT : ∀ t, T = some t → t.Accepted)
    (hrun : Poll.hostPpoll h pkt fuel s fds T = .error .overflow) :
    ∃ t s', T = some t ∧ Measured h.budget fds t ∧ int64Max < (h.nowMs s').1 + t.ceilMs := by
  unfold Poll.hostPpoll at hrun
  split_ifs at hrun with hc
  · exact hp.inner_overflow hT hrun
  · push Not at hc
    rcases bind_eq_error.mp hrun with hbig | ⟨big, _, hpure⟩
    · obtain ⟨t, s', heq, ⟨hbudget, _, hzero⟩, hmax⟩ := hp.inner_overflow hT hbig
      exact ⟨t, s', heq, ⟨hbudget, hc.2.1, hzero⟩, hmax⟩
    · cases hpure

theorem Punctual.run_overflow (hp : Punctual h clock) {k : HostBits} {pkt : Packets} {fuel : Nat}
    {s : σ} {fds : List PollFd} {e : Entry} {t : e.Timeout}
    (hT : ∀ T, e.timespec t = some T → T.Accepted)
    (hrun : e.run h k pkt fuel s fds t = .error .overflow) :
    ∃ T s', e.timespec t = some T ∧
      (Measured h.budget fds T ∧ int64Max < (h.nowMs s').1 + T.ceilMs ∨
        SHIM_POLL_CHUNK < fds.length ∧ int64Max < (h.nowMs s').1 + T.floorMs) := by
  rw [Entry.run_def] at hrun
  rcases bind_eq_error.mp hrun with hfirst | ⟨q₁, hq₁, hrest⟩
  · obtain ⟨T, s', heq, ⟨hbudget, hne, hzero⟩, hmax⟩ := hp.hostPpoll_overflow hT hfirst
    refine ⟨T, s', heq, .inl ⟨⟨hbudget, ?_, hzero⟩, hmax⟩⟩
    rintro rfl
    exact hne (List.length_eq_zero_iff.mp (e.asked_length k []))
  · rcases bind_eq_error.mp hrest with hretry | ⟨_, _, hpure⟩
    · unfold retried at hretry
      split_ifs at hretry with hrefused
      have hlen := (hostPpoll_frame hq₁).2.length
      rw [Entry.asked_length] at hlen
      rcases bind_eq_error.mp hretry with hd | ⟨d, _, hchunk⟩
      · cases heq : e.timespec t with
        | none =>
          rw [Entry.deadline_none heq] at hd
          cases hd
        | some T =>
          rw [Entry.deadline_some (hp.read_nonneg _) (hT T heq) heq] at hd
          split_ifs at hd with hmax
          exact ⟨T, q₁.state, rfl, .inr ⟨by omega, by omega⟩⟩
      · exact absurd hchunk chunkLoop_ne_overflow
    · cases hpure

end

/-! ## The calls that keep their timeouts -/

/-- On any punctual host, a call that finds nothing has waited its timeout out. -/
def NeverEarly (e : Entry) (pkt : Packets) (fds : List PollFd) (t : e.Timeout) : Prop :=
  ∀ (σ : Type) (h : Cosmo σ) (clock : σ → Int), Punctual h clock →
    ∀ (k : HostBits) (fuel : Nat) (s : σ) (q : Polled σ), e.run h k pkt fuel s fds t = .ok q →
      q.ret = .ok 0 → WaitedOut clock (e.timespec t) s q.state

/-- The same of `__ape_shim_host_ppoll`. -/
def HostNeverEarly (pkt : Packets) (fds : List PollFd) (T : Option Timespec) : Prop :=
  ∀ (σ : Type) (h : Cosmo σ) (clock : σ → Int), Punctual h clock →
    ∀ (fuel : Nat) (s : σ) (q : Polled σ), hostPpoll h pkt fuel s fds T = .ok q →
      q.ret = .ok 0 → WaitedOut clock T s q.state

/-- On a punctual host with this budget and no clock reading after `last`, no deadline
leaves 64 bits. -/
def NoOverflow (budget last : Nat) (e : Entry) (pkt : Packets) (fds : List PollFd)
    (t : e.Timeout) : Prop :=
  ∀ (σ : Type) (h : Cosmo σ) (clock : σ → Int), Punctual h clock → h.budget = budget →
    (∀ s, (h.nowMs s).1 ≤ last) → ∀ (k : HostBits) (fuel : Nat) (s : σ),
      e.run h k pkt fuel s fds t ≠ .error .overflow

def HostNoOverflow (budget last : Nat) (pkt : Packets) (fds : List PollFd)
    (T : Option Timespec) : Prop :=
  ∀ (σ : Type) (h : Cosmo σ) (clock : σ → Int), Punctual h clock → h.budget = budget →
    (∀ s, (h.nowMs s).1 ≤ last) → ∀ (fuel : Nat) (s : σ),
      hostPpoll h pkt fuel s fds T ≠ .error .overflow

def quiet : Answer := ⟨.ok 0, fun _ => 0#16⟩

theorem fill_quiet (fds : List PollFd) : readyCount (fill fds quiet.revents) = 0 := by
  rw [readyCount_eq_zero]
  intro p hp
  obtain ⟨i, hi, rfl⟩ := List.getElem_of_mem hp
  simp [fill, quiet]

/-! ### A host whose clock stands -/

/-- Its clock stands at `last`; it refuses every array, or finds nothing at once and will
not wait. -/
def standingHost (refuse : Bool) (budget last : Nat) : Cosmo Unit where
  ppoll _ _ t :=
    if refuse then (⟨.fail .einval, fun _ => 0#16⟩, ())
    else if t = some .zero then (quiet, ())
    else (⟨.fail (.other 0), fun _ => 0#16⟩, ())
  nowMs _ := (last, ())
  nanosleep _ _ := (true, ())
  windows := true
  polledMs := budget

section

variable {refuse : Bool} {budget last : Nat}

theorem standing_ret {s : Unit} {fds : List PollFd} {t : Option Timespec} {n : Nat}
    (hret : ((standingHost refuse budget last).once s fds t).ret = .ok n) :
    t = some .zero ∧ n = 0 ∧
      readyCount ((standingHost refuse budget last).once s fds t).fds = 0 := by
  simp only [Cosmo.once, standingHost] at hret ⊢
  split_ifs at hret ⊢ with hrefuse hzero
  · cases hret
    exact ⟨hzero, rfl, fill_quiet fds⟩

theorem standing_punctual : Punctual (standingHost refuse budget last) fun _ => (last : Int) where
  nonneg _ := Int.natCast_nonneg last
  reads _ := ⟨le_refl _, le_refl _⟩
  polls _ _ _ := le_refl _
  sleeps _ _ := le_refl _
  counts s fds t n hret := by
    obtain ⟨_, rfl, hcount⟩ := standing_ret hret
    exact hcount
  waits s fds t _ hret := by
    obtain ⟨hzero, _⟩ := standing_ret hret
    cases hzero
    simp [Timespec.ceilMs, Timespec.zero]
  blocks s fds hret := by
    obtain ⟨hzero, _⟩ := standing_ret hret
    cases hzero

theorem standing_inner {fuel : Nat} {fds : List PollFd} {t : Timespec} (ht : t.Accepted)
    (hm : Measured budget fds t) (hmax : int64Max < last + t.ceilMs) :
    hostPpollInner (standingHost false budget last) fuel () fds (some t) = .error .overflow := by
  have hdirect : ¬ Direct (standingHost false budget last) fds (some t) :=
    not_direct_iff.mpr hm
  have hquiet : ((standingHost false budget last).once () fds (some .zero)).ret = .ok 0 := rfl
  simp only [hostPpollInner, if_neg hdirect, hquiet, ne_eq, not_true, if_false]
  refine bind_eq_error.mpr (.inl ?_)
  change innerDeadline last (some t) = _
  rw [innerDeadline_some (Int.natCast_nonneg last) ht]
  exact if_neg (by omega)

theorem standing_hostPpoll {pkt : Packets} {fuel : Nat} {fds : List PollFd} {t : Timespec}
    (ht : t.Accepted) (hm : Measured budget fds t) (hmax : int64Max < last + t.ceilMs) :
    hostPpoll (standingHost false budget last) pkt fuel () fds (some t) = .error .overflow := by
  unfold hostPpoll
  split_ifs
  · exact standing_inner ht hm hmax
  · obtain ⟨hbudget, hne, hzero⟩ := hm
    refine bind_eq_error.mpr (.inl (standing_inner ht ⟨hbudget, ?_, hzero⟩ hmax))
    simp [hne]

/-- A host that refuses an array is asked once. -/
theorem refusing_hostPpoll {σ : Type} (h : Cosmo σ) (pkt : Packets) (fuel : Nat) (s : σ)
    (fds : List PollFd) (T : Option Timespec)
    (hrefuse : ∀ asked t, fds.length ≤ asked.length → (h.once s asked t).ret = .fail .einval) :
    ∃ q asked t, hostPpoll h pkt fuel s fds T = .ok q ∧ q.ret = .fail .einval ∧
      q.state = (h.once s asked t).state := by
  have hinner : ∀ asked, fds.length ≤ asked.length →
      ∃ t, hostPpollInner h fuel s asked T = .ok (h.once s asked t) := by
    intro asked hlen
    by_cases hdirect : Direct h asked T
    · exact ⟨T, if_pos hdirect⟩
    · refine ⟨some .zero, ?_⟩
      simp [hostPpollInner, hdirect, hrefuse asked _ hlen]
  unfold hostPpoll
  split_ifs
  · obtain ⟨t, ht⟩ := hinner fds (le_refl _)
    exact ⟨_, fds, t, ht, hrefuse fds t (le_refl _), rfl⟩
  · have hlen : fds.length ≤ (fds ++ twins pkt fds).length := by simp
    obtain ⟨t, ht⟩ := hinner _ hlen
    rw [ht]
    exact ⟨_, _, t, rfl, by simp only [hrefuse _ t hlen], rfl⟩

end

theorem fits_of_noOverflow {budget last : Nat} {e : Entry} {pkt : Packets} {fds : List PollFd}
    {t : e.Timeout} {T : Timespec} (hT : T.Accepted) (heq : e.timespec t = some T)
    (hno : NoOverflow budget last e pkt fds t) :
    (Measured budget fds T → last + T.ceilMs ≤ int64Max) ∧
      (SHIM_POLL_CHUNK < fds.length → last + T.floorMs ≤ int64Max) := by
  constructor
  · rintro ⟨hbudget, hne, hzero⟩
    by_contra hmax
    refine hno Unit (standingHost false budget last) _ standing_punctual rfl (fun _ => le_refl _)
      kPolls.flag 0 () ?_
    have hasked : e.asked kPolls.flag fds ≠ [] := by
      intro hnil
      have hlen := e.asked_length kPolls.flag fds
      rw [hnil] at hlen
      exact hne (List.length_eq_zero_iff.mp hlen.symm)
    rw [Entry.run_def, heq]
    exact bind_eq_error.mpr (.inl (standing_hostPpoll hT ⟨hbudget, hasked, hzero⟩ (by omega)))
  · intro hlong
    by_contra hmax
    refine hno Unit (standingHost true budget last) _ standing_punctual rfl (fun _ => le_refl _)
      kPolls.flag 0 () ?_
    obtain ⟨q, _, _, hq, hret, _⟩ := refusing_hostPpoll (standingHost true budget last) pkt 0 ()
      (e.asked kPolls.flag fds) (e.timespec t) (fun _ _ _ => rfl)
    have hlen := (hostPpoll_frame hq).2.length
    rw [Entry.asked_length] at hlen
    have hdeadline : e.deadline (standingHost true budget last) q.state t = .error .overflow := by
      rw [Entry.deadline_some (Int.natCast_nonneg last) hT heq]
      exact if_neg hmax
    rw [Entry.run_def]
    refine bind_eq_error.mpr (.inr ⟨q, hq, bind_eq_error.mpr (.inl ?_)⟩)
    rw [retried, if_pos ⟨hret, by omega⟩]
    exact bind_eq_error.mpr (.inl hdeadline)

theorem fits_of_hostNoOverflow {budget last : Nat} {pkt : Packets} {fds : List PollFd}
    {T : Timespec} (hT : T.Accepted) (hno : HostNoOverflow budget last pkt fds (some T))
    (hm : Measured budget fds T) : last + T.ceilMs ≤ int64Max := by
  by_contra hmax
  exact hno Unit (standingHost false budget last) _ standing_punctual rfl (fun _ => le_refl _) 0 ()
    (standing_hostPpoll hT hm (by omega))

/-! ### A host that sleeps just long enough -/

/-- It refuses long arrays and finds nothing in short ones; a sleep takes it from zero to
`wake`. -/
def sleepyHost (wake : Nat) : Cosmo Bool where
  ppoll s fds t :=
    if SHIM_POLL_CHUNK < fds.length then (⟨.fail .einval, fun _ => 0#16⟩, s)
    else if t = some .zero then (quiet, s)
    else (⟨.fail (.other 0), fun _ => 0#16⟩, s)
  nowMs s := (if s then wake else 0, s)
  nanosleep _ _ := (true, true)
  windows := false
  polledMs := 0

def sleepyClock (wake : Nat) (s : Bool) : Int := if s then wake else 0

section

variable {wake : Nat}

theorem sleepy_ret {s : Bool} {fds : List PollFd} {t : Option Timespec} {n : Nat}
    (hret : ((sleepyHost wake).once s fds t).ret = .ok n) :
    t = some .zero ∧ n = 0 ∧ readyCount ((sleepyHost wake).once s fds t).fds = 0 := by
  simp only [Cosmo.once, sleepyHost] at hret ⊢
  split_ifs at hret ⊢ with hlong hzero
  · cases hret
    exact ⟨hzero, rfl, fill_quiet fds⟩

theorem sleepy_state (s : Bool) (fds : List PollFd) (t : Option Timespec) :
    ((sleepyHost wake).once s fds t).state = s := by
  simp only [Cosmo.once, sleepyHost]
  split_ifs <;> rfl

theorem sleepy_punctual : Punctual (sleepyHost wake) (sleepyClock wake) where
  nonneg s := by cases s <;> simp [sleepyClock]
  reads _ := ⟨le_refl _, le_refl _⟩
  polls s fds t := by rw [sleepy_state]
  sleeps s _ := by cases s <;> simp [sleepyClock, sleepyHost]
  counts s fds t n hret := by
    obtain ⟨_, rfl, hcount⟩ := sleepy_ret hret
    exact hcount
  waits s fds t _ hret := by
    obtain ⟨hzero, _⟩ := sleepy_ret hret
    cases hzero
    rw [sleepy_state]
    simp [Timespec.ceilMs, Timespec.zero]
  blocks s fds hret := by
    obtain ⟨hzero, _⟩ := sleepy_ret hret
    cases hzero

theorem sleepy_sweep {cs : List (List PollFd)} (hcs : ∀ c ∈ cs, c.length ≤ SHIM_POLL_CHUNK)
    (s : Bool) : (sweep (sleepyHost wake) s cs).ret = .ok 0 ∧
      (sweep (sleepyHost wake) s cs).state = s := by
  induction cs generalizing s with
  | nil => exact ⟨rfl, rfl⟩
  | cons c cs ih =>
    have hshort : ¬ SHIM_POLL_CHUNK < c.length := by
      have := hcs c (List.mem_cons_self ..)
      omega
    have hquiet : ((sleepyHost wake).once s c (some .zero)).ret = .ok 0 := by
      simp [Cosmo.once, sleepyHost, hshort, quiet]
    obtain ⟨hret, hstate⟩ := ih (fun d hd => hcs d (List.mem_cons_of_mem _ hd)) s
    simp only [sweep, hquiet, sleepy_state, hret, hstate]
    exact ⟨trivial, trivial⟩

theorem sleepy_turn (fuel : Nat) (s : Bool) (fds : List PollFd) :
    chunkLoop (sleepyHost wake) (sleepNap (sleepyHost wake)) wake (fuel + 1) s fds =
      if wake - sleepyClock wake s ≤ 0 then
        .ok ⟨.ok 0, (sweep (sleepyHost wake) s (pieces fds.length fds)).fds, s⟩
      else chunkLoop (sleepyHost wake) (sleepNap (sleepyHost wake)) wake fuel true
        (sweep (sleepyHost wake) s (pieces fds.length fds)).fds := by
  obtain ⟨hret, hstate⟩ := @sleepy_sweep wake _ (@pieces_length_le fds.length fds) s
  have hread : ∀ u, (sleepyHost wake).nowMs u = (sleepyClock wake u, u) := fun _ => rfl
  have hnap : ∀ u fds ms, sleepNap (sleepyHost wake) u fds ms = (none, true) := fun _ _ _ => rfl
  have hpos : (0 : Int) ≤ wake := Int.natCast_nonneg wake
  simp only [chunkLoop, hret, hstate, hread, hnap, ne_eq, not_true, if_false, if_pos hpos]

/-- From zero, the chunks are polled, slept over and polled again, and the clock then
stands at the deadline. -/
theorem sleepy_chunkLoop (fds : List PollFd) :
    ∃ q, chunkLoop (sleepyHost wake) (sleepNap (sleepyHost wake)) wake 2 false fds = .ok q ∧
      q.ret = .ok 0 ∧ sleepyClock wake q.state = wake := by
  have hasleep : sleepyClock wake false = 0 := rfl
  have hawake : sleepyClock wake true = wake := rfl
  rw [sleepy_turn]
  by_cases hzero : (wake : Int) = 0
  · rw [if_pos (by omega)]
    exact ⟨_, rfl, rfl, hasleep.trans hzero.symm⟩
  · rw [if_neg (by omega), sleepy_turn, if_pos (by omega)]
    exact ⟨_, rfl, rfl, hawake⟩

/-- The retry of `__ape_shim_ppoll` gives up a part of a millisecond too soon. -/
theorem whole_of_neverEarly {pkt : Packets} {fds : List PollFd} {T : Timespec} (hT : T.Accepted)
    (hearly : NeverEarly .ppoll pkt fds (some T)) :
    fds.length ≤ SHIM_POLL_CHUNK ∨ T.Whole ∨ int64Max < T.floorMs := by
  by_contra hnone
  push Not at hnone
  obtain ⟨hlong, hpart, hmax⟩ := hnone
  obtain ⟨wake, hwake⟩ := Int.eq_ofNat_of_zero_le (T.floorMs_nonneg hT)
  have hasked := Entry.ppoll.asked_length kPolls.flag fds
  obtain ⟨q₁, _, _, hq₁, hret₁, hstate₁⟩ := refusing_hostPpoll (sleepyHost wake) pkt 2 false
    (Entry.ppoll.asked kPolls.flag fds) (some T) (by
      intro asked t hlen
      have hlong' : SHIM_POLL_CHUNK < asked.length := by omega
      simp [Cosmo.once, sleepyHost, hlong'])
  rw [sleepy_state] at hstate₁
  obtain ⟨q₂, hq₂, hret₂, hclock⟩ := @sleepy_chunkLoop wake q₁.fds
  have hlen := (hostPpoll_frame hq₁).2.length
  have hdeadline : Entry.ppoll.deadline (sleepyHost wake) q₁.state (some T) = .ok (wake, false) := by
    have hread : ((sleepyHost wake).nowMs false).1 = 0 := rfl
    have hd := @Entry.deadline_some Bool (sleepyHost wake) .ppoll (some T) false T
      (le_of_eq hread.symm) hT rfl
    rw [hread, Int.zero_add, if_pos hmax, hwake] at hd
    rw [hstate₁]
    exact hd
  have hrun : Entry.ppoll.run (sleepyHost wake) kPolls.flag pkt 2 false fds (some T) =
      .ok { q₂ with fds := q₂.fds.map (Entry.ppoll.hand kPolls.flag) } := by
    refine (@Entry.run_def Bool (sleepyHost wake) kPolls.flag .ppoll pkt 2 false fds
      (some T)).trans (bind_eq_ok.mpr ⟨q₁, hq₁, bind_eq_ok.mpr ⟨q₂, ?_, rfl⟩⟩)
    rw [retried, if_pos ⟨hret₁, by omega⟩, hdeadline]
    exact hq₂
  obtain ⟨t, heq, hwaited⟩ := hearly Bool _ _ sleepy_punctual _ _ _ _ hrun hret₂
  cases (heq : some T = some t)
  have hfloor := Timespec.floorMs_lt hpart
  change sleepyClock wake false + T.ceilMs ≤ sleepyClock wake q₂.state at hwaited
  rw [hclock] at hwaited
  change 0 + T.ceilMs ≤ (wake : Int) at hwaited
  omega

end

/-! ## When timeouts are kept -/

theorem Timespec.ofMs_whole {ms : Int} (h : 0 ≤ ms) : (ofMs ms).Whole := by
  have hmod := Int.tmod_eq_emod_of_nonneg (b := 1000) h
  simp only [Whole, ofMs, hmod]
  omega

theorem noOverflow_of_fits {budget last : Nat} {e : Entry} {pkt : Packets} {fds : List PollFd}
    {t : e.Timeout} (ht : ∀ T, e.timespec t = some T → T.Accepted)
    (hfits : ∀ T, e.timespec t = some T →
      (Measured budget fds T → last + T.ceilMs ≤ int64Max) ∧
        (SHIM_POLL_CHUNK < fds.length → last + T.floorMs ≤ int64Max)) :
    NoOverflow budget last e pkt fds t := by
  intro σ h clock hp hbudget hlast k fuel s hrun
  obtain ⟨T, s', heq, hends⟩ := hp.run_overflow ht hrun
  have hread := hlast s'
  rw [hbudget] at hends
  rcases hends with ⟨hm, hmax⟩ | ⟨hlong, hmax⟩
  · have := (hfits T heq).1 hm
    omega
  · have := (hfits T heq).2 hlong
    omega

/-- `__ape_shim_host_ppoll` and `__ape_shim_poll` never return nothing early.
`__ape_shim_ppoll` never does exactly when the array is too short to be retried or the
timeout is whole, one that fits no deadline apart. And no deadline overflows exactly when
the clock's last reading has room for each one that is computed. -/
theorem timeouts_kept_iff (pkt : Packets) (fds : List PollFd) (t : Option Timespec) (ms : Int)
    (ht : ∀ T, t = some T → T.Accepted) (budget last : Nat) :
    HostNeverEarly pkt fds t ∧ NeverEarly .poll pkt fds ms ∧
      (NeverEarly .ppoll pkt fds t ↔ fds.length ≤ SHIM_POLL_CHUNK ∨
        ∀ T, t = some T → T.Whole ∨ int64Max < T.floorMs) ∧
      (HostNoOverflow budget last pkt fds t ↔
        ∀ T, t = some T → Measured budget fds T → last + T.ceilMs ≤ int64Max) ∧
      (NoOverflow budget last .poll pkt fds ms ↔ ∀ T, msTimespec ms = some T →
        (Measured budget fds T ∨ SHIM_POLL_CHUNK < fds.length) → last + ms ≤ int64Max) ∧
      (NoOverflow budget last .ppoll pkt fds t ↔ ∀ T, t = some T →
        (Measured budget fds T → last + T.ceilMs ≤ int64Max) ∧
          (SHIM_POLL_CHUNK < fds.length → last + T.floorMs ≤ int64Max)) := by
  have hms : ∀ T, msTimespec ms = some T →
      T.Accepted ∧ T.Whole ∧ T.ceilMs = ms ∧ T.floorMs = ms := by
    intro T heq
    obtain ⟨hpos, rfl⟩ := msTimespec_eq_some heq
    exact ⟨Timespec.ofMs_accepted hpos, Timespec.ofMs_whole hpos, Timespec.ceilMs_ofMs hpos,
      Timespec.floorMs_ofMs hpos⟩
  refine ⟨?_, ?_, ⟨?_, ?_⟩, ⟨?_, ?_⟩, ⟨?_, ?_⟩, ⟨?_, ?_⟩⟩
  · intro σ h clock hp fuel s q hrun hret
    exact hp.hostPpoll ht hrun hret
  · intro σ h clock hp k fuel s q hrun hret
    have haccepted : ∀ T, Entry.poll.timespec ms = some T → T.Accepted := fun T heq => (hms T heq).1
    exact hp.run haccepted (.inr fun T heq => .inl (hms T heq).2.1) hrun hret
  · intro hearly
    cases t with
    | none => exact .inr fun T heq => by cases heq
    | some T =>
      refine (whole_of_neverEarly (ht T rfl) hearly).imp id fun hwhole T' heq => ?_
      cases heq
      exact hwhole
  · intro hwhole σ h clock hp k fuel s q hrun hret
    have haccepted : ∀ T, Entry.ppoll.timespec t = some T → T.Accepted := ht
    exact hp.run haccepted hwhole hrun hret
  · rintro hno T rfl hm
    exact fits_of_hostNoOverflow (ht T rfl) hno hm
  · intro hfits σ h clock hp hbudget hlast fuel s hrun
    obtain ⟨T, s', heq, hm, hmax⟩ := hp.hostPpoll_overflow ht hrun
    rw [hbudget] at hm
    have hread := hlast s'
    have hroom := hfits T heq hm
    omega
  · intro hno T heq hcomputed
    obtain ⟨hT, _, hceil, hfloor⟩ := hms T heq
    obtain ⟨hmeasured, hlong⟩ := fits_of_noOverflow (e := .poll) (t := ms) hT heq hno
    rcases hcomputed with hm | hlen
    · rw [← hceil]
      exact hmeasured hm
    · rw [← hfloor]
      exact hlong hlen
  · intro hfits
    refine noOverflow_of_fits (fun T heq => (hms T heq).1) fun T heq => ?_
    obtain ⟨_, _, hceil, hfloor⟩ := hms T heq
    rw [hceil, hfloor]
    exact ⟨fun hm => hfits T heq (.inl hm), fun hlen => hfits T heq (.inr hlen)⟩
  · rintro hno T rfl
    exact fits_of_noOverflow (e := .ppoll) (t := some T) (ht T rfl) rfl hno
  · intro hfits
    exact noOverflow_of_fits ht hfits

/-- A millisecond and a half. -/
def threeHalves : Timespec := ⟨0, 1500000⟩

theorem threeHalves_accepted : ∀ T, some threeHalves = some T → T.Accepted := by
  rintro T ⟨rfl⟩
  simp [Timespec.Accepted, threeHalves]

theorem threeHalves_timeouts :
    HostNeverEarly .empty [] (some threeHalves) ∧ NeverEarly .poll .empty [] (0 : Int) ∧
      (NeverEarly .ppoll .empty [] (some threeHalves) ↔ ([] : List PollFd).length ≤ SHIM_POLL_CHUNK ∨
        ∀ T, some threeHalves = some T → T.Whole ∨ int64Max < T.floorMs) ∧
      (HostNoOverflow 0 0 .empty [] (some threeHalves) ↔
        ∀ T, some threeHalves = some T → Measured 0 [] T → 0 + T.ceilMs ≤ int64Max) ∧
      (NoOverflow 0 0 .poll .empty [] (0 : Int) ↔ ∀ T, msTimespec 0 = some T →
        (Measured 0 [] T ∨ SHIM_POLL_CHUNK < ([] : List PollFd).length) → 0 + 0 ≤ int64Max) ∧
      (NoOverflow 0 0 .ppoll .empty [] (some threeHalves) ↔ ∀ T, some threeHalves = some T →
        (Measured 0 [] T → 0 + T.ceilMs ≤ int64Max) ∧
          (SHIM_POLL_CHUNK < ([] : List PollFd).length → 0 + T.floorMs ≤ int64Max)) :=
  timeouts_kept_iff .empty [] (some threeHalves) 0 threeHalves_accepted 0 0

/-- Of thirty-three descriptors on a host that refuses so many, `ppoll` gives up after one
millisecond. -/
theorem threeHalves_cut_short :
    ¬ NeverEarly .ppoll .empty (List.replicate 33 ⟨0, 1#16, 0#16⟩) (some threeHalves) := by
  intro hearly
  rcases whole_of_neverEarly (threeHalves_accepted _ rfl) hearly with hshort | hwhole | hlong
  · rw [List.length_replicate] at hshort
    exact absurd hshort (by decide)
  · exact absurd hwhole (by simp [Timespec.Whole, threeHalves])
  · exact absurd hlong (by simp [Timespec.floorMs, threeHalves, int64Max])

end ApeShim.Poll
