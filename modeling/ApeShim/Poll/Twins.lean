import ApeShim.Poll.Calls

/-!
Packet sockets under a poll. An entry's readiness is the readiness of the visible socket
and of its second one together, on every way through the wait that splices the second one
in; the other ways are counted out exactly.
-/

namespace ApeShim.Poll
open Flags
open Epoll (PollFd)

section

variable {σ : Type}

/-! ## The host -/

/-- The host polls as documented: it refuses an array for its length alone, and otherwise
counts the entries it found ready, in bits that have a name. -/
structure Truthful (h : Cosmo σ) (k : HostBits) (ready : σ → Int → BitVec 16 → BitVec 16)
    (accepts : Nat → Bool) : Prop where
  refuses : ∀ s fds t, (h.once s fds t).ret = .fail .einval ↔ accepts fds.length = false
  counts : ∀ s fds t n, (h.once s fds t).ret = .ok n → readyCount (h.once s fds t).fds = n
  reports : ∀ s fds t n, (h.once s fds t).ret = .ok n → (h.once s fds t).fds =
    fds.map fun p => { p with revents := ready (h.once s fds t).state p.fd p.events }
  named : ∀ s fd ev i, (ready s fd ev).getLsbD i = true → ∃ n, (k n).getLsbD i = true

/-- The lengths a host takes, a chunk's among them. -/
structure Limit where
  accepts : Nat → Bool
  chunk : ∀ n, n ≤ SHIM_POLL_CHUNK → accepts n = true

/-! ## Readiness of two sockets -/

variable (ready : σ → Int → BitVec 16 → BitVec 16)

/-- The readiness of an entry's descriptor together with that of the second socket `serve`
gives it. -/
def unionReady (serve : Int → Option Int) (s : σ) (p : PollFd) : BitVec 16 :=
  ready s p.fd p.events ||| ((serve p.fd).map fun fd6 => ready s fd6 p.events).getD 0#16

/-- An entry as it is handed back. -/
def Told (serve : Int → Option Int) (s : σ) (p p' : PollFd) : Prop :=
  p'.fd = p.fd ∧ p'.events = p.events ∧ p'.revents = unionReady ready serve s p

def noTwin (_ : Int) : Option Int := none

variable {ready}

theorem Told.of_eq {serve serve' : Int → Option Int} {s : σ} {p p' : PollFd}
    (h : Told ready serve s p p') (hs : serve p.fd = serve' p.fd) : Told ready serve' s p p' := by
  obtain ⟨hfd, hev, hrev⟩ := h
  exact ⟨hfd, hev, by rw [hrev, unionReady, unionReady, hs]⟩

theorem told_of_eq {serve serve' : Int → Option Int} {s : σ} {fds fds' : List PollFd}
    (h : List.Forall₂ (Told ready serve s) fds fds')
    (hs : ∀ p ∈ fds, serve p.fd = serve' p.fd) : List.Forall₂ (Told ready serve' s) fds fds' := by
  induction h with
  | nil => exact .nil
  | cons hp _ ih =>
    exact .cons (hp.of_eq (hs _ (List.mem_cons_self ..)))
      (ih fun q hq => hs q (List.mem_cons_of_mem _ hq))

section

variable {h : Cosmo σ} {k : HostBits} {accepts : Nat → Bool}

theorem Truthful.once_told (ht : Truthful h k ready accepts) {s : σ} {fds fds' : List PollFd}
    {t : Option Timespec} {n : Nat} (hq : SameQuery fds fds')
    (hret : (h.once s fds' t).ret = .ok n) :
    List.Forall₂ (Told ready noTwin (h.once s fds' t).state) fds (h.once s fds' t).fds := by
  rw [ht.reports s fds' t n hret, List.forall₂_map_right_iff]
  refine List.Forall₂.imp ?_ hq
  rintro p p' ⟨hfd, hev⟩
  exact ⟨hfd.symm, hev.symm, by simp [unionReady, noTwin, hfd, hev]⟩

/-- What an answer taken over by the wait says. -/
theorem Truthful.answered_told (ht : Truthful h k ready accepts) {s₀ : σ} {fds : List PollFd}
    {q : Polled σ} (hq : Answered h s₀ fds q) {n : Nat} (hret : q.ret = .ok n) :
    accepts fds.length = true ∧ readyCount q.fds = n ∧ ∃ s, h.Later s₀ s ∧ h.Later s q.state ∧
      List.Forall₂ (Told ready noTwin s) fds q.fds := by
  obtain ⟨s, fds', t, hs, hsame, hlate, hfds, hr⟩ := hq
  have honce : (h.once s fds' t).ret = .ok n := by
    rcases hr with hr | ⟨_, hr⟩
    · exact hr.symm.trans hret
    · rw [hret] at hr
      cases hr
  refine ⟨?_, hfds ▸ ht.counts s fds' t n honce, _, hs.once fds' t, hlate, ?_⟩
  · cases hacc : accepts fds.length with
    | true => rfl
    | false =>
      rw [hsame.length] at hacc
      rw [(ht.refuses s fds' t).mpr hacc] at honce
      cases honce
  · rw [hfds]
    exact ht.once_told hsame honce

theorem Truthful.answered_einval (ht : Truthful h k ready accepts) {s₀ : σ} {fds : List PollFd}
    {q : Polled σ} (hq : Answered h s₀ fds q) (hret : q.ret = .fail .einval) :
    accepts fds.length = false := by
  obtain ⟨s, fds', t, _, hsame, _, _, hr⟩ := hq
  rw [hsame.length, ← ht.refuses s fds' t]
  rcases hr with hr | ⟨_, hr⟩
  · exact hr.symm.trans hret
  · rw [hret] at hr
    cases hr

/-! ## The splice -/

theorem twins_length (pkt : Packets) (fds : List PollFd) :
    (twins pkt fds).length = (fds.filterMap fun p => pkt.packetSecondary p.fd).length := by
  induction fds with
  | nil => rfl
  | cons p ps ih =>
    unfold twins at ih ⊢
    cases hp : pkt.packetSecondary p.fd with
    | none => simpa [hp] using ih
    | some fd6 => simpa [hp] using ih

theorem twins_nil_iff {pkt : Packets} {fds : List PollFd} :
    twins pkt fds = [] ↔ ∀ p ∈ fds, pkt.packetSecondary p.fd = none := by
  simp [twins]

/-- Folding puts on each entry what was told of it and what was told of its twin. -/
theorem foldTwins_told {pkt : Packets} {s : σ} {fds bs ts : List PollFd}
    (hb : List.Forall₂ (Told ready noTwin s) fds bs)
    (ht : List.Forall₂ (Told ready noTwin s) (twins pkt fds) ts) :
    List.Forall₂ (Told ready pkt.packetSecondary s) fds (foldTwins pkt fds bs ts) := by
  induction hb generalizing ts with
  | nil => exact .nil
  | @cons p b ps bs hp _ ih =>
    obtain ⟨_, _, hrev⟩ := hp
    simp only [unionReady, noTwin, Option.map_none, Option.getD_none, BitVec.or_zero] at hrev
    cases hsec : pkt.packetSecondary p.fd with
    | none =>
      simp only [twins, List.filterMap_cons, hsec, Option.map_none] at ht
      have hfold : foldTwins pkt (p :: ps) (b :: bs) ts =
          { p with revents := b.revents } :: foldTwins pkt ps bs ts := by
        simp only [foldTwins, hsec]
      rw [hfold]
      exact .cons ⟨rfl, rfl, by simp [unionReady, hsec, hrev]⟩ (ih ht)
    | some fd6 =>
      simp only [twins, List.filterMap_cons, hsec, Option.map_some] at ht
      cases ht with
      | @cons _ t _ ts ht hrest =>
        obtain ⟨_, _, htrev⟩ := ht
        have hfold : foldTwins pkt (p :: ps) (b :: bs) (t :: ts) =
            { p with revents := b.revents ||| t.revents } :: foldTwins pkt ps bs ts := by
          simp only [foldTwins, hsec]
        rw [hfold]
        refine .cons ⟨rfl, rfl, ?_⟩ (ih hrest)
        simp only [unionReady, noTwin, Option.map_none, Option.getD_none, BitVec.or_zero] at htrev
        simp [unionReady, hsec, hrev, htrev]

/-- What the one place that splices serves, and to how long an array. -/
def spliced (pkt : Packets) (fds : List PollFd) : Int → Option Int :=
  if fds.length ≤ SHIM_PKT_POLL_MAX then pkt.packetSecondary else noTwin

def splicedLength (pkt : Packets) (fds : List PollFd) : Nat :=
  if fds.length ≤ SHIM_PKT_POLL_MAX then
    fds.length + (fds.filterMap fun p => pkt.packetSecondary p.fd).length
  else fds.length

theorem not_spliced {pkt : Packets} {fds : List PollFd}
    (hc : pkt.packetAny = false ∨ fds = [] ∨ SHIM_PKT_POLL_MAX < fds.length ∨ twins pkt fds = []) :
    (∀ p ∈ fds, spliced pkt fds p.fd = none) ∧ splicedLength pkt fds = fds.length := by
  by_cases hlen : fds.length ≤ SHIM_PKT_POLL_MAX
  · have hnone : ∀ p ∈ fds, pkt.packetSecondary p.fd = none := by
      rcases hc with hany | hnil | hlong | hnil
      · intro p _
        simp [Packets.packetSecondary, hany]
      · simp [hnil]
      · omega
      · exact twins_nil_iff.mp hnil
    have hlen0 := twins_length pkt fds
    rw [twins_nil_iff.mpr hnone, List.length_nil] at hlen0
    simp only [spliced, splicedLength, if_pos hlen]
    exact ⟨hnone, by omega⟩
  · simp only [spliced, splicedLength, if_neg hlen]
    exact ⟨fun _ _ => rfl, trivial⟩

theorem Truthful.hostPpoll_told (ht : Truthful h k ready accepts) {pkt : Packets} {fuel : Nat}
    {s₀ : σ} {fds : List PollFd} {timeout : Option Timespec} {q : Polled σ}
    (hrun : hostPpoll h pkt fuel s₀ fds timeout = .ok q) {n : Nat} (hret : q.ret = .ok n) :
    accepts (splicedLength pkt fds) = true ∧ readyCount q.fds = n ∧
      ∃ s, h.Later s₀ s ∧ h.Later s q.state ∧
        List.Forall₂ (Told ready (spliced pkt fds) s) fds q.fds := by
  unfold hostPpoll at hrun
  split_ifs at hrun with hc
  · obtain ⟨hnone, hlen⟩ := not_spliced hc
    obtain ⟨hacc, hcount, s, hs, hlate, htold⟩ :=
      ht.answered_told (hostPpollInner_answered hrun) hret
    rw [hlen]
    exact ⟨hacc, hcount, s, hs, hlate, told_of_eq htold fun p hp => (hnone p hp).symm⟩
  · push Not at hc
    obtain ⟨_, _, hshort, _⟩ := hc
    obtain ⟨big, hbig, hq⟩ := bind_eq_ok.mp hrun
    cases hq
    cases hbret : big.ret with
    | fail e =>
      rw [hbret] at hret
      cases hret
    | ok m =>
      rw [hbret] at hret
      obtain ⟨hacc, _, s, hs, hlate, htold⟩ :=
        ht.answered_told (hostPpollInner_answered hbig) hbret
      have hfront := List.forall₂_take fds.length htold
      have hback := List.forall₂_drop fds.length htold
      rw [List.take_left] at hfront
      rw [List.drop_left] at hback
      rw [List.length_append, twins_length] at hacc
      simp only [spliced, splicedLength, if_pos hshort]
      exact ⟨hacc, by injection hret, s, hs, hlate, foldTwins_told hfront hback⟩

theorem Truthful.hostPpoll_einval (ht : Truthful h k ready accepts) {pkt : Packets} {fuel : Nat}
    {s₀ : σ} {fds : List PollFd} {timeout : Option Timespec} {q : Polled σ}
    (hrun : hostPpoll h pkt fuel s₀ fds timeout = .ok q) (hret : q.ret = .fail .einval) :
    accepts (splicedLength pkt fds) = false := by
  unfold hostPpoll at hrun
  split_ifs at hrun with hc
  · rw [(not_spliced hc).2]
    exact ht.answered_einval (hostPpollInner_answered hrun) hret
  · push Not at hc
    obtain ⟨_, _, hshort, _⟩ := hc
    obtain ⟨big, hbig, hq⟩ := bind_eq_ok.mp hrun
    cases hq
    have hbret : big.ret = .fail .einval := by
      cases hb : big.ret with
      | ok m =>
        rw [hb] at hret
        cases hret
      | fail e =>
        rw [hb] at hret
        exact hret
    have hacc := ht.answered_einval (hostPpollInner_answered hbig) hbret
    rw [List.length_append, twins_length] at hacc
    simpa only [splicedLength, if_pos hshort] using hacc

/-! ## The chunks -/

/-- An entry told of at a moment of the call. -/
def ToldOnce (h : Cosmo σ) (ready : σ → Int → BitVec 16 → BitVec 16) (serve : Int → Option Int)
    (s₀ s₁ : σ) (p p' : PollFd) : Prop :=
  ∃ s, h.Later s₀ s ∧ h.Later s s₁ ∧ Told ready serve s p p'

theorem ToldOnce.mono {serve : Int → Option Int} {s₀ s₀' s₁ s₁' : σ} {p p' : PollFd}
    (hp : ToldOnce h ready serve s₀' s₁ p p') (h₀ : h.Later s₀ s₀') (h₁ : h.Later s₁ s₁') :
    ToldOnce h ready serve s₀ s₁' p p' := by
  obtain ⟨s, hs, hs', htold⟩ := hp
  exact ⟨s, h₀.trans hs, hs'.trans h₁, htold⟩

/-- An entry is told of by what is asked of it. -/
theorem toldOnce_of_sameQuery {serve : Int → Option Int} {s₀ s₁ : σ} {fds fds' told : List PollFd}
    (hsame : SameQuery fds fds')
    (htold : List.Forall₂ (ToldOnce h ready serve s₀ s₁) fds' told) :
    List.Forall₂ (ToldOnce h ready serve s₀ s₁) fds told := by
  induction hsame generalizing told with
  | nil =>
    cases htold
    exact .nil
  | cons hp _ ih =>
    cases htold with
    | cons hp' hrest =>
      obtain ⟨s, hs, hs', hfd, hev, hrev⟩ := hp'
      refine .cons ⟨s, hs, hs', hfd.trans hp.1.symm, hev.trans hp.2.symm, ?_⟩ (ih hrest)
      simpa [unionReady, hp.1, hp.2] using hrev

theorem Truthful.sweep_told (ht : Truthful h k ready accepts) {cs : List (List PollFd)} {s : σ}
    {n : Nat} (hret : (sweep h s cs).ret = .ok n) :
    readyCount (sweep h s cs).fds = n ∧
      List.Forall₂ (ToldOnce h ready noTwin s (sweep h s cs).state) cs.flatten
        (sweep h s cs).fds := by
  induction cs generalizing s n with
  | nil =>
    cases hret
    exact ⟨rfl, .nil⟩
  | cons c cs ih =>
    cases hc : (h.once s c (some .zero)).ret with
    | fail e =>
      simp only [sweep, hc] at hret
      cases hret
    | ok m =>
      have hlater : h.Later s (h.once s c (some .zero)).state := (Cosmo.Later.refl s).once c _
      simp only [sweep, hc] at hret ⊢
      cases hrest : (sweep h (h.once s c (some .zero)).state cs).ret with
      | fail e =>
        simp only [hrest] at hret
        cases hret
      | ok m' =>
        simp only [hrest, Ret.ok.injEq] at hret
        obtain ⟨hcount, htold⟩ := ih hrest
        constructor
        · rw [readyCount_append, ht.counts s c _ m hc, hcount]
          exact hret
        · rw [List.flatten_cons]
          refine List.rel_append ?_ (htold.imp fun p p' hp => hp.mono hlater (.refl _))
          exact (ht.once_told (SameQuery.refl c) hc).imp fun p p' hp =>
            ⟨_, hlater, sweep_later cs _, hp⟩

theorem Truthful.swept_told (ht : Truthful h k ready accepts) {s₀ : σ} {fds : List PollFd}
    {q : Polled σ} (hq : Swept h s₀ fds q) {n : Nat} (hret : q.ret = .ok n) :
    readyCount q.fds = n ∧
      List.Forall₂ (ToldOnce h ready noTwin s₀ q.state) fds q.fds := by
  obtain ⟨s, fds', hs, hsame, hlate, hfds, hr⟩ := hq
  have hsweep : (sweep h s (pieces fds'.length fds')).ret = .ok n := by
    rcases hr with hr | ⟨e, hr⟩
    · exact hr.symm.trans hret
    · rw [hret] at hr
      cases hr
  obtain ⟨hcount, htold⟩ := ht.sweep_told hsweep
  rw [pieces_flatten _ _ (Nat.le_refl _)] at htold
  rw [hfds]
  exact ⟨hcount, toldOnce_of_sameQuery hsame (htold.imp fun p p' hp => hp.mono hs hlate)⟩

end

end

/-! ## What a call reports -/

section

variable {σ : Type} {h : Cosmo σ} {k : HostBits} {ready : σ → Int → BitVec 16 → BitVec 16}

/-- Every entry is handed back with the readiness of its descriptor and of the socket
`serve` gives it, at a moment of the call, and the count is of the entries found ready. -/
def Reports (h : Cosmo σ) (k : HostBits) (ready : σ → Int → BitVec 16 → BitVec 16) (e : Entry)
    (serve : Int → Option Int) (s₀ : σ) (fds : List PollFd) (q : Polled σ) : Prop :=
  ∀ n, q.ret = .ok n → readyCount q.fds = n ∧
    List.Forall₂ (fun p p' => p'.fd = p.fd ∧ ∃ s, h.Later s₀ s ∧ h.Later s q.state ∧
      p'.revents = e.shown k (unionReady ready serve s p)) (e.asked k fds) q.fds

/-- What a call polls beside an entry's own descriptor. -/
def served (pkt : Packets) (accepts : Nat → Bool) (fds : List PollFd) : Int → Option Int :=
  if accepts (splicedLength pkt fds) then spliced pkt fds else noTwin

theorem asked_fds (e : Entry) (k : HostBits) (fds : List PollFd) :
    (e.asked k fds).map PollFd.fd = fds.map PollFd.fd := by
  cases e <;> simp [Entry.asked, toHostEvents, Function.comp_def]

theorem secondaries_eq (pkt : Packets) (fds : List PollFd) :
    (fds.filterMap fun p => pkt.packetSecondary p.fd) =
      (fds.map PollFd.fd).filterMap pkt.packetSecondary := by
  rw [List.filterMap_map]
  rfl

theorem spliced_asked (pkt : Packets) (e : Entry) (k : HostBits) (fds : List PollFd) :
    spliced pkt (e.asked k fds) = spliced pkt fds ∧
      splicedLength pkt (e.asked k fds) = splicedLength pkt fds := by
  simp only [spliced, splicedLength, Entry.asked_length, secondaries_eq, asked_fds]
  exact ⟨trivial, trivial⟩

/-- Translating keeps what is zero and nothing else zero, in bits that have a name. -/
theorem shown_eq_zero_iff {e : Entry} {x : BitVec 16}
    (hx : ∀ i, x.getLsbD i = true → ∃ n, (k n).getLsbD i = true) :
    e.shown k x = 0#16 ↔ x = 0#16 := by
  have hlin : evToLinux k x = 0#16 ↔ x = 0#16 := by
    have hzero : kPolls.Named 0#16 := by
      intro i hi
      simp at hi
    rw [evToLinux, (Naming.named_toLin k x).ext_iff hzero]
    simp only [Naming.has_toLin, has_zero_left, Bool.false_eq_true, iff_false, Bool.not_eq_true]
    constructor
    · intro hnone
      refine BitVec.eq_of_getLsbD_eq fun i _ => ?_
      cases hi : x.getLsbD i with
      | false => simp
      | true =>
        obtain ⟨n, hn⟩ := hx i hi
        have hhit := has_iff.mpr ⟨i, hi, hn⟩
        rw [hnone n] at hhit
        cases hhit
    · rintro rfl n
      exact has_zero_left _
  cases e with
  | poll => exact hlin
  | ppoll => exact hlin
  | epollWait => exact Iff.rfl

theorem Truthful.unionReady_named {accepts : Nat → Bool} (ht : Truthful h k ready accepts)
    (serve : Int → Option Int) (s : σ) (p : PollFd) :
    ∀ i, (unionReady ready serve s p).getLsbD i = true → ∃ n, (k n).getLsbD i = true := by
  intro i hi
  simp only [unionReady, BitVec.getLsbD_or, Bool.or_eq_true] at hi
  rcases hi with hi | hi
  · exact ht.named s _ _ i hi
  · cases hserve : serve p.fd with
    | none => simp [hserve] at hi
    | some fd6 =>
      rw [hserve, Option.map_some, Option.getD_some] at hi
      exact ht.named s _ _ i hi

/-- Handing the entries back keeps the count and shows each one's readiness. -/
theorem Truthful.handed {accepts : Nat → Bool} (ht : Truthful h k ready accepts) (e : Entry)
    {serve : Int → Option Int} {s₀ s₁ : σ} {fds fds' : List PollFd}
    (htold : List.Forall₂ (ToldOnce h ready serve s₀ s₁) fds fds') :
    readyCount (fds'.map (e.hand k)) = readyCount fds' ∧
      List.Forall₂ (fun p p' => p'.fd = p.fd ∧ ∃ s, h.Later s₀ s ∧ h.Later s s₁ ∧
        p'.revents = e.shown k (unionReady ready serve s p)) fds (fds'.map (e.hand k)) := by
  induction htold with
  | nil => exact ⟨rfl, .nil⟩
  | @cons p p' ps ps' hp _ ih =>
    obtain ⟨s, hs, hs', hfd, _, hrev⟩ := hp
    obtain ⟨hcount, hshown⟩ := ih
    constructor
    · have hzero : (e.hand k p').revents = 0#16 ↔ p'.revents = 0#16 := by
        rw [Entry.hand, hrev]
        exact shown_eq_zero_iff (ht.unionReady_named serve s p)
      simp only [readyCount, List.map_cons, List.countP_cons] at hcount ⊢
      rw [hcount]
      congr 1
      simp [hzero]
    · exact .cons ⟨hfd, s, hs, hs', by rw [Entry.hand, hrev]⟩ hshown

/-- A call reports what it serves, or is refused with too few entries for a retry. -/
theorem Truthful.run_reports {accepts : Nat → Bool} (ht : Truthful h k ready accepts)
    {pkt : Packets} {fuel : Nat} {s : σ} {fds : List PollFd} {e : Entry} {t : e.Timeout}
    {q : Polled σ} (hrun : e.run h k pkt fuel s fds t = .ok q) :
    Reports h k ready e (served pkt accepts fds) s fds q ∧
      ∀ n, q.ret = .ok n →
        SHIM_POLL_CHUNK < fds.length ∨ accepts (splicedLength pkt fds) = true := by
  obtain ⟨q₁, q₂, hq₁, rfl, hends⟩ := Entry.run_eq_ok hrun
  obtain ⟨hserve, hlength⟩ := spliced_asked pkt e k fds
  rcases hends with ⟨rfl, _⟩ | ⟨hret, hlen, d, hd, hchunk⟩
  · constructor
    · intro n hret
      obtain ⟨hacc, hcount, u, hu, hu', htold⟩ := ht.hostPpoll_told hq₁ hret
      rw [hserve] at htold
      rw [hlength] at hacc
      rw [served, if_pos hacc]
      obtain ⟨hkeep, hshown⟩ := ht.handed e (htold.imp fun p p' hp => ⟨u, hu, hu', hp⟩)
      exact ⟨hkeep.trans hcount, hshown⟩
    · intro n hret
      obtain ⟨hacc, _⟩ := ht.hostPpoll_told hq₁ hret
      exact .inr (hlength ▸ hacc)
  · have hacc := ht.hostPpoll_einval hq₁ hret
    rw [hlength] at hacc
    constructor
    · intro n hret
      obtain ⟨hcount, htold⟩ := ht.swept_told (Entry.retry_swept hq₁ hd hchunk) hret
      obtain ⟨hkeep, hshown⟩ := ht.handed e htold
      rw [served, hacc]
      exact ⟨hkeep.trans hcount, hshown⟩
    · intro n _
      have hsame := (hostPpoll_frame hq₁).2.length
      rw [Entry.asked_length] at hsame
      exact .inl (by omega)

end

/-! ## When twins are polled -/

/-- A call that reports at all serves each entry the second socket its descriptor has. -/
def TwinsServed (pkt : Packets) (L : Limit) (fds : List PollFd) : Prop :=
  SHIM_POLL_CHUNK < fds.length ∨ L.accepts (splicedLength pkt fds) = true →
    ∀ p ∈ fds, served pkt L.accepts fds p.fd = pkt.twin p.fd

theorem reports_congr {σ : Type} {h : Cosmo σ} {k : HostBits}
    {ready : σ → Int → BitVec 16 → BitVec 16} {e : Entry} {serve serve' : Int → Option Int}
    {s₀ : σ} {fds : List PollFd} {q : Polled σ} (hr : Reports h k ready e serve s₀ fds q)
    (hs : ∀ p ∈ fds, serve p.fd = serve' p.fd) : Reports h k ready e serve' s₀ fds q := by
  intro n hret
  obtain ⟨hcount, hshown⟩ := hr n hret
  refine ⟨hcount, ?_⟩
  have hasked : ∀ p ∈ e.asked k fds, serve p.fd = serve' p.fd := by
    intro p hp
    have hmem : p.fd ∈ fds.map PollFd.fd := by
      rw [← asked_fds e k fds]
      exact List.mem_map_of_mem hp
    obtain ⟨p', hp', hfd⟩ := List.mem_map.mp hmem
    rw [← hfd]
    exact hs p' hp'
  generalize e.asked k fds = asked at hasked hshown ⊢
  generalize q.fds = told at hshown ⊢
  clear hcount
  induction hshown with
  | nil => exact .nil
  | cons hp _ ih =>
    obtain ⟨hfd, s, hs, hs', hrev⟩ := hp
    refine .cons ⟨hfd, s, hs, hs', ?_⟩ (ih fun p hp => hasked p (List.mem_cons_of_mem _ hp))
    rw [hrev, unionReady, unionReady, hasked _ (List.mem_cons_self ..)]

/-- A host where time stands still. -/
def stillHost (accepts : Nat → Bool) (ready : Int → BitVec 16 → BitVec 16) : Cosmo Unit where
  ppoll _ fds _ :=
    if accepts fds.length then
      (⟨.ok (readyCount (fds.map fun p => { p with revents := ready p.fd p.events })),
        fun i => (fds[i]?.map fun p => ready p.fd p.events).getD 0#16⟩, ())
    else (⟨.fail .einval, fun _ => 0#16⟩, ())
  nowMs _ := (0, ())
  nanosleep _ _ := (true, ())
  windows := false
  polledMs := 0

section

variable {L : Limit} {ready : Int → BitVec 16 → BitVec 16}

theorem still_refused {s : Unit} {fds : List PollFd} {t : Option Timespec}
    (hacc : L.accepts fds.length = false) :
    ((stillHost L.accepts ready).once s fds t).ret = .fail .einval := by
  simp [Cosmo.once, stillHost, hacc]

theorem still_accepted {s : Unit} {fds : List PollFd} {t : Option Timespec}
    (hacc : L.accepts fds.length = true) :
    (stillHost L.accepts ready).once s fds t =
      ⟨.ok (readyCount (fds.map fun p => { p with revents := ready p.fd p.events })),
        fds.map fun p => { p with revents := ready p.fd p.events }, ()⟩ := by
  have hfill : fill fds (fun i => (fds[i]?.map fun p => ready p.fd p.events).getD 0#16) =
      fds.map fun p => { p with revents := ready p.fd p.events } := by
    refine List.ext_getElem (by simp) fun i hi _ => ?_
    have hlt : i < fds.length := by simpa using hi
    simp [fill, hlt]
  simp only [Cosmo.once, stillHost, hacc, if_true, hfill]

theorem still_truthful {k : HostBits}
    (hk : ∀ fd ev i, (ready fd ev).getLsbD i = true → ∃ n, (k n).getLsbD i = true) :
    Truthful (stillHost L.accepts ready) k (fun _ => ready) L.accepts where
  refuses s fds t := by
    cases hacc : L.accepts fds.length with
    | true => simp [still_accepted hacc]
    | false => simp [still_refused hacc]
  counts s fds t n hret := by
    cases hacc : L.accepts fds.length with
    | true =>
      rw [still_accepted hacc] at hret ⊢
      injection hret
    | false =>
      rw [still_refused hacc] at hret
      cases hret
  reports s fds t n hret := by
    cases hacc : L.accepts fds.length with
    | true => rw [still_accepted hacc]
    | false =>
      rw [still_refused hacc] at hret
      cases hret
  named _ := hk

variable (L ready)

theorem still_sweep {cs : List (List PollFd)} (hcs : ∀ c ∈ cs, c.length ≤ SHIM_POLL_CHUNK)
    (s : Unit) : ∃ n, (sweep (stillHost L.accepts ready) s cs).ret = .ok n := by
  induction cs generalizing s with
  | nil => exact ⟨0, rfl⟩
  | cons c cs ih =>
    have hacc := L.chunk c.length (hcs c (List.mem_cons_self ..))
    obtain ⟨n, hn⟩ := ih (fun d hd => hcs d (List.mem_cons_of_mem _ hd)) ()
    simp only [sweep, still_accepted hacc, hn]
    exact ⟨_, rfl⟩

theorem still_chunkLoop (nap : Unit → List PollFd → Int → Option PollErr × Unit) (s : Unit)
    (fds : List PollFd) :
    ∃ q n, chunkLoop (stillHost L.accepts ready) nap 0 1 s fds = .ok q ∧ q.ret = .ok n := by
  obtain ⟨n, hn⟩ := still_sweep L ready (@pieces_length_le fds.length fds) s
  have hnow : ∀ u, (stillHost L.accepts ready).nowMs u = (0, ()) := fun _ => rfl
  cases n with
  | succ n => exact ⟨_, n + 1, by simp [chunkLoop, hn], hn⟩
  | zero =>
    refine ⟨⟨.ok 0, (sweep (stillHost L.accepts ready) s (pieces fds.length fds)).fds, ()⟩, 0, ?_, rfl⟩
    simp only [chunkLoop, hn, hnow, ne_eq, not_true, if_false, Int.le_refl, if_true, Int.sub_self]

theorem still_hostPpoll (pkt : Packets) (fuel : Nat) (s : Unit) (fds : List PollFd)
    (t : Option Timespec) :
    ∃ q, hostPpoll (stillHost L.accepts ready) pkt fuel s fds t = .ok q ∧
      (q.ret = .fail .einval ∨ ∃ n, q.ret = .ok n) := by
  have hinner : ∀ asked, hostPpollInner (stillHost L.accepts ready) fuel s asked t =
      .ok ((stillHost L.accepts ready).once s asked t) := fun asked => if_pos (.inl rfl)
  have hret : ∀ asked, ((stillHost L.accepts ready).once s asked t).ret = .fail .einval ∨
      ∃ n, ((stillHost L.accepts ready).once s asked t).ret = .ok n := by
    intro asked
    cases hacc : L.accepts asked.length with
    | true => exact .inr ⟨_, by rw [still_accepted hacc]⟩
    | false => exact .inl (still_refused hacc)
  unfold hostPpoll
  split_ifs
  · exact ⟨_, hinner fds, hret fds⟩
  · rw [hinner]
    refine ⟨_, rfl, ?_⟩
    rcases hret (fds ++ twins pkt fds) with hr | ⟨n, hr⟩
    · exact .inl (by simp only [hr])
    · simp only [hr]
      exact .inr ⟨_, rfl⟩

/-- Asked not to wait, the host reports whenever it may. -/
theorem still_reports (e : Entry) (k : HostBits) (pkt : Packets) (fds : List PollFd)
    (hmay : SHIM_POLL_CHUNK < fds.length ∨ L.accepts (splicedLength pkt fds) = true)
    (ht : Truthful (stillHost L.accepts ready) k (fun _ => ready) L.accepts) :
    ∃ q n, e.run (stillHost L.accepts ready) k pkt 1 () fds e.atOnce = .ok q ∧ q.ret = .ok n := by
  obtain ⟨q₁, hq₁, hr⟩ := still_hostPpoll L ready pkt 1 () (e.asked k fds) (e.timespec e.atOnce)
  have hlen := (hostPpoll_frame hq₁).2.length
  rw [Entry.asked_length] at hlen
  have hdeadline : e.deadline (stillHost L.accepts ready) q₁.state e.atOnce = .ok (0, ()) := by
    cases e <;> rfl
  have hagain : ∃ q₂ n, retried (fun s fds =>
      e.deadline (stillHost L.accepts ready) s e.atOnce >>= fun d =>
        chunkLoop (stillHost L.accepts ready) (e.nap (stillHost L.accepts ready) k) d.1 1 d.2 fds)
      q₁ = .ok q₂ ∧ q₂.ret = .ok n := by
    rcases hr with hr | ⟨n, hr⟩
    · have hlong : SHIM_POLL_CHUNK < q₁.fds.length := by
        rcases hmay with hmay | hacc
        · omega
        · have hrefused := ht.hostPpoll_einval hq₁ hr
          rw [(spliced_asked pkt e k fds).2, hacc] at hrefused
          cases hrefused
      rw [retried, if_pos ⟨hr, hlong⟩, hdeadline]
      exact still_chunkLoop L ready _ _ _
    · refine ⟨q₁, n, ?_, hr⟩
      rw [retried, if_neg (by simp [hr])]
  obtain ⟨q₂, n, hq₂, hret⟩ := hagain
  refine ⟨{ q₂ with fds := q₂.fds.map (e.hand k) }, n, ?_, hret⟩
  rw [Entry.run_def]
  exact bind_eq_ok.mpr ⟨q₁, hq₁, bind_eq_ok.mpr ⟨q₂, hq₂, rfl⟩⟩

end

/-- Only one descriptor is ready, with an error. -/
def onlyReady (x fd : Int) (_ : BitVec 16) : BitVec 16 :=
  if fd = x then kPolls.flag .POLLERR else 0#16

theorem onlyReady_named (x fd : Int) (ev : BitVec 16) (i : Nat)
    (hi : (onlyReady x fd ev).getLsbD i = true) : ∃ n, (kPolls.flag n).getLsbD i = true := by
  unfold onlyReady at hi
  split_ifs at hi
  · exact ⟨_, hi⟩
  · simp at hi

theorem unionReady_onlyReady {serve : Int → Option Int} {x : Int} {p : PollFd} (hx : x ≠ p.fd) :
    unionReady (fun _ : Unit => onlyReady x) serve () p = 0#16 ↔ serve p.fd ≠ some x := by
  have hown : onlyReady x p.fd p.events = 0#16 := if_neg (Ne.symm hx)
  have hflag : kPolls.flag .POLLERR ≠ 0#16 := by decide
  rw [unionReady, hown, BitVec.zero_or]
  cases hserve : serve p.fd with
  | none => simp
  | some y => simp [onlyReady, hflag]

theorem forall₂_both {α β : Type} {R S : α → β → Prop} {as : List α} {bs : List β}
    (hR : List.Forall₂ R as bs) (hS : List.Forall₂ S as bs) {a : α} (ha : a ∈ as) :
    ∃ b, R a b ∧ S a b := by
  induction hR with
  | nil => simp at ha
  | cons hab _ ih =>
    cases hS with
    | cons hab' hrest =>
      rcases List.mem_cons.mp ha with rfl | ha
      · exact ⟨_, hab, hab'⟩
      · exact ih hrest ha

/-- A descriptor served the wrong socket, or not served its own, is one whose report some
host shows to be wrong. -/
theorem exists_telling {pkt : Packets} {L : Limit} {fds : List PollFd} {fd : Int}
    (hne : served pkt L.accepts fds fd ≠ pkt.twin fd) :
    ∃ x, x ≠ fd ∧ ¬ (served pkt L.accepts fds fd ≠ some x ↔ pkt.twin fd ≠ some x) := by
  cases hserve : served pkt L.accepts fds fd with
  | some x =>
    have hsec : pkt.packetSecondary fd = some x := by
      unfold served spliced at hserve
      split_ifs at hserve
      · exact hserve
      · simp [noTwin] at hserve
      · simp [noTwin] at hserve
    rw [hserve] at hne
    exact ⟨x, Packets.secondary_ne hsec, fun hiff => hiff.mpr (Ne.symm hne) rfl⟩
  | none =>
    cases htwin : pkt.twin fd with
    | none => exact absurd (hserve.trans htwin.symm) hne
    | some x => exact ⟨x, Packets.twin_ne htwin, fun hiff => hiff.mp (by simp) rfl⟩

/-- Whatever a truthful host is and does, each entry is handed back with the readiness of
both sockets of its descriptor and nobody else's, and the count is of the entries handed
back ready. -/
def AlwaysReports (e : Entry) (pkt : Packets) (L : Limit) (fds : List PollFd) : Prop :=
  ∀ (σ : Type) (h : Cosmo σ) (k : HostBits) (ready : σ → Int → BitVec 16 → BitVec 16),
    Truthful h k ready L.accepts → ∀ (t : e.Timeout) (fuel : Nat) (s : σ) (q : Polled σ),
      e.run h k pkt fuel s fds t = .ok q → Reports h k ready e pkt.twin s fds q

theorem served_of_alwaysReports {e : Entry} {pkt : Packets} {L : Limit} {fds : List PollFd}
    (hall : AlwaysReports e pkt L fds) : TwinsServed pkt L fds := by
  intro hmay p hp
  by_contra hne
  obtain ⟨x, hx, hwrong⟩ := exists_telling hne
  have ht := still_truthful (L := L) (onlyReady_named x)
  obtain ⟨q, n, hrun, hret⟩ := still_reports L (onlyReady x) e _ pkt fds hmay ht
  obtain ⟨_, htwin⟩ := hall Unit _ _ _ ht e.atOnce 1 () q hrun n hret
  obtain ⟨_, hserved⟩ := (ht.run_reports hrun).1 n hret
  obtain ⟨a, ha, hfd⟩ : ∃ a ∈ e.asked kPolls.flag fds, a.fd = p.fd := by
    have hmem : p.fd ∈ (e.asked kPolls.flag fds).map PollFd.fd := by
      rw [asked_fds]
      exact List.mem_map_of_mem hp
    exact List.mem_map.mp hmem
  obtain ⟨b, ⟨_, _, _, _, hb⟩, ⟨_, _, _, _, hb'⟩⟩ := forall₂_both htwin hserved ha
  have hzero := fun serve =>
    shown_eq_zero_iff (e := e) (ht.unionReady_named serve () a)
  rw [← hfd] at hx hwrong
  apply hwrong
  rw [← unionReady_onlyReady hx, ← unionReady_onlyReady hx, ← hzero, ← hzero]
  exact Eq.congr_left (hb'.symm.trans hb)

/-- A call reports both sockets of every entry exactly when the array is served its twins. -/
theorem twins_polled_iff (e : Entry) (pkt : Packets) (L : Limit) (fds : List PollFd) :
    AlwaysReports e pkt L fds ↔ TwinsServed pkt L fds := by
  constructor
  · exact served_of_alwaysReports
  · intro hserved σ h k ready ht t fuel s q hrun n hret
    obtain ⟨hreports, hmay⟩ := ht.run_reports hrun
    exact reports_congr hreports (hserved (hmay n hret)) n hret

/-! ## A sniffer -/

def anyLength : Limit := ⟨fun _ => true, fun _ _ => rfl⟩

/-- Descriptor 5 is a packet socket whose second socket is 6. -/
def sniffing : Packets := (Packets.empty.packetSocket 5 100).packetBind 5 6 104 3 (by decide)

/-- It has been closed since, and its number given to something else. -/
def reusedNumber : Packets := (sniffing.closed 5).opened 5 108

def sniffer : PollFd := ⟨5, 1#16, 0#16⟩

theorem sniffing_twins :
    sniffing.twin 5 = some 6 ∧ reusedNumber.packetSecondary 5 = some 6 ∧
      reusedNumber.twin 5 = none := by
  decide

/-- Among 65 entries the second socket is not polled, and the socket of a closed one is
polled for whatever has its number. -/
theorem sniffer_misreported :
    ¬ AlwaysReports .ppoll sniffing anyLength (List.replicate 65 sniffer) ∧
      ¬ AlwaysReports .ppoll reusedNumber anyLength [sniffer] := by
  obtain ⟨htwin, hstale, hnone⟩ := sniffing_twins
  constructor
  · intro hall
    have hserved := served_of_alwaysReports hall (.inr rfl) sniffer (by simp)
    rw [sniffer, htwin] at hserved
    simp [served, spliced, SHIM_PKT_POLL_MAX, noTwin] at hserved
  · intro hall
    have hserved := served_of_alwaysReports hall (.inr rfl) sniffer (by simp)
    rw [sniffer, hnone] at hserved
    simp [served, spliced, SHIM_PKT_POLL_MAX, anyLength, hstale] at hserved

end ApeShim.Poll
