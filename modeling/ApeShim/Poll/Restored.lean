import ApeShim.Poll.Twins

/-!
The two fields a caller gets back. `events` is translated in place and translated back, so
what it comes back as is settled by the host's numbering alone; `revents` comes back in the
caller's bits as far as no name asked for shares a host bit with one that was not.
-/

namespace ApeShim.Poll
open Flags
open Epoll (PollFd)

/-- The bits reported whether asked for or not. -/
def alwaysBits (k : HostBits) : BitVec 16 := k .POLLERR ||| k .POLLHUP ||| k .POLLNVAL

theorem has_alwaysBits {k : HostBits} {x : BitVec 16} :
    has (alwaysBits k) x = true ↔ ∃ n ∈ PollBit.always, has (k n) x = true := by
  simp [alwaysBits, PollBit.always, or_assoc]

theorem has_alwaysBits_flag {j : PollBit} :
    has (alwaysBits kPolls.flag) (kPolls.flag j) = true ↔ j ∈ PollBit.always := by
  simp only [has_alwaysBits, Naming.has_flag_flag]
  exact ⟨fun ⟨_, hn, hj⟩ => hj ▸ hn, fun hj => ⟨j, hj, rfl⟩⟩

/-- The host marks only what was asked for, or what is always reported. -/
def Obeys {σ : Type} (h : Cosmo σ) (k : HostBits) : Prop :=
  ∀ s fds t, ∀ p ∈ (h.once s fds t).fds, within p.revents (p.events ||| alwaysBits k) = true

/-- The entry the caller gets back, beside the one it passed in. -/
def Kept (p p' : PollFd) : Prop :=
  p'.events = p.events ∧ within p'.revents (p.events ||| alwaysBits kPolls.flag) = true

/-- Every name asked for is something on the host, and shares no bit there with a name not
asked for; nor does a name that is always reported, with one that is neither. -/
def Faithful (k : HostBits) (lin : BitVec 16) : Prop :=
  (∀ n, has lin (kPolls.flag n) = true → k n ≠ 0#16) ∧
    ∀ j, has lin (kPolls.flag j) = false →
      (∀ n, has lin (kPolls.flag n) = true → has (k n) (k j) = false) ∧
        (j ∉ PollBit.always → ∀ n ∈ PollBit.always, has (k n) (k j) = false)

/-! ## One entry -/

theorem events_survive_iff {k : HostBits} {lin : BitVec 16} (hlin : kPolls.Named lin) :
    evToLinux k (evToHost k lin) = lin ↔
      ∀ n, has lin (kPolls.flag n) = true →
        k n ≠ 0#16 ∧ ∀ j, has lin (kPolls.flag j) = false → has (k n) (k j) = false :=
  Naming.toLin_toHost_iff hlin

/-- What the host may mark reads back as what the caller may see. -/
theorem revents_survive_iff {k : HostBits} {lin : BitVec 16} :
    (∀ x, within x (evToHost k lin ||| alwaysBits k) = true →
        within (evToLinux k x) (lin ||| alwaysBits kPolls.flag) = true) ↔
      ∀ j, has lin (kPolls.flag j) = false → j ∉ PollBit.always →
        (∀ n, has lin (kPolls.flag n) = true → has (k n) (k j) = false) ∧
          ∀ n ∈ PollBit.always, has (k n) (k j) = false := by
  have hseen : ∀ x, within (evToLinux k x) (lin ||| alwaysBits kPolls.flag) = true ↔
      ∀ j, has x (k j) = true → has lin (kPolls.flag j) = true ∨ j ∈ PollBit.always := by
    intro x
    rw [evToLinux, (Naming.named_toLin k x).within_iff]
    simp only [Naming.has_toLin, has_or_left, Bool.or_eq_true, has_alwaysBits_flag]
  have hmarked : ∀ j, has (evToHost k lin ||| alwaysBits k) (k j) = true ↔
      (∃ n, has lin (kPolls.flag n) = true ∧ has (k n) (k j) = true) ∨
        ∃ n ∈ PollBit.always, has (k n) (k j) = true := by
    intro j
    rw [has_or_left, Bool.or_eq_true, evToHost, Naming.has_toHost, has_alwaysBits]
  simp only [hseen]
  constructor
  · intro h j hj hnever
    have hclear : ¬ has (evToHost k lin ||| alwaysBits k) (k j) = true := by
      intro hhit
      rcases h _ (within_refl _) j hhit with hlin | halways
      · rw [hj] at hlin
        cases hlin
      · exact hnever halways
    rw [hmarked, not_or] at hclear
    push Not at hclear
    simpa using hclear
  · intro h x hx j hhit
    by_contra hnone
    rw [not_or, Bool.not_eq_true] at hnone
    obtain ⟨hasked, halways⟩ := h j hnone.1 hnone.2
    rcases (hmarked j).mp (has_mono hx hhit) with ⟨n, hn, hshare⟩ | ⟨n, hn, hshare⟩
    · rw [hasked n hn] at hshare
      cases hshare
    · rw [halways n hn] at hshare
      cases hshare

theorem faithful_iff {k : HostBits} {lin : BitVec 16} (hlin : kPolls.Named lin) :
    (evToLinux k (evToHost k lin) = lin ∧
      ∀ x, within x (evToHost k lin ||| alwaysBits k) = true →
        within (evToLinux k x) (lin ||| alwaysBits kPolls.flag) = true) ↔ Faithful k lin := by
  rw [events_survive_iff hlin, revents_survive_iff]
  constructor
  · rintro ⟨hev, hrev⟩
    exact ⟨fun n hn => (hev n hn).1, fun j hj =>
      ⟨fun n hn => (hev n hn).2 j hj, fun hnever => (hrev j hj hnever).2⟩⟩
  · rintro ⟨hset, hapart⟩
    exact ⟨fun n hn => ⟨hset n hn, fun j hj => (hapart j hj).1 n hn⟩, fun j hj hnever =>
      ⟨(hapart j hj).1, (hapart j hj).2 hnever⟩⟩

/-! ## Through the wait -/

/-- Every entry of an array is marked with what it asks for, or what is always reported. -/
def Marked (k : HostBits) (fds : List PollFd) : Prop :=
  ∀ p ∈ fds, within p.revents (p.events ||| alwaysBits k) = true

section

variable {σ : Type} {h : Cosmo σ} {k : HostBits}

theorem Marked.append {as bs : List PollFd} (ha : Marked k as) (hb : Marked k bs) :
    Marked k (as ++ bs) := by
  intro p hp
  rcases List.mem_append.mp hp with hp | hp
  · exact ha p hp
  · exact hb p hp

theorem Obeys.answered (ho : Obeys h k) {s₀ : σ} {fds : List PollFd} {q : Polled σ}
    (hq : Answered h s₀ fds q) : Marked k q.fds := by
  obtain ⟨s, fds', t, _, _, _, hfds, _⟩ := hq
  rw [hfds]
  exact ho s fds' t

theorem within_or {x y m : BitVec 16} (hx : within x m = true) (hy : within y m = true) :
    within (x ||| y) m = true := by
  rw [within_iff] at hx hy ⊢
  intro i hi
  simp only [BitVec.getLsbD_or, Bool.or_eq_true] at hi
  exact hi.elim (hx i) (hy i)

theorem foldTwins_marked {pkt : Packets} {fds bs ts : List PollFd} (hb : SameQuery fds bs)
    (ht : SameQuery (twins pkt fds) ts) (hbm : Marked k bs) (htm : Marked k ts) :
    Marked k (foldTwins pkt fds bs ts) := by
  induction hb generalizing ts with
  | nil =>
    intro p hp
    simp [foldTwins] at hp
  | @cons p b ps bs hp _ ih =>
    have hown : within b.revents (p.events ||| alwaysBits k) = true := by
      rw [hp.2]
      exact hbm b (List.mem_cons_self ..)
    have hbm' : Marked k bs := fun q hq => hbm q (List.mem_cons_of_mem _ hq)
    intro q hq
    cases hsec : pkt.packetSecondary p.fd with
    | none =>
      simp only [twins, List.filterMap_cons, hsec, Option.map_none] at ht
      simp only [foldTwins, hsec, List.mem_cons] at hq
      rcases hq with rfl | hq
      · exact hown
      · exact ih ht hbm' htm q hq
    | some fd6 =>
      simp only [twins, List.filterMap_cons, hsec, Option.map_some] at ht
      cases ht with
      | @cons _ t _ ts htq hrest =>
        simp only [foldTwins, hsec, List.mem_cons] at hq
        have htwin : within t.revents (p.events ||| alwaysBits k) = true := by
          rw [htq.2]
          exact htm t (List.mem_cons_self ..)
        rcases hq with rfl | hq
        · exact within_or hown htwin
        · exact ih hrest hbm' (fun u hu => htm u (List.mem_cons_of_mem _ hu)) q hq

theorem Obeys.hostPpoll (ho : Obeys h k) {pkt : Packets} {fuel : Nat} {s₀ : σ}
    {fds : List PollFd} {timeout : Option Timespec} {q : Polled σ}
    (hrun : Poll.hostPpoll h pkt fuel s₀ fds timeout = .ok q) : Marked k q.fds := by
  unfold Poll.hostPpoll at hrun
  split_ifs at hrun with hc
  · exact ho.answered (hostPpollInner_answered hrun)
  · obtain ⟨big, hbig, hq⟩ := bind_eq_ok.mp hrun
    cases hq
    have hbq := hostPpollInner_answered hbig
    have hmark := ho.answered hbq
    have hfront := List.forall₂_take fds.length hbq.sameQuery
    have hback := List.forall₂_drop fds.length hbq.sameQuery
    rw [List.take_left] at hfront
    rw [List.drop_left] at hback
    exact foldTwins_marked hfront hback (fun p hp => hmark p (List.mem_of_mem_take hp))
      (fun p hp => hmark p (List.mem_of_mem_drop hp))

theorem Obeys.sweep (ho : Obeys h k) {cs : List (List PollFd)} (hcs : Marked k cs.flatten)
    (s : σ) : Marked k (Poll.sweep h s cs).fds := by
  induction cs generalizing s with
  | nil => exact hcs
  | cons c cs ih =>
    have hrest : Marked k cs.flatten := by
      intro p hp
      rw [List.flatten_cons] at hcs
      exact hcs p (List.mem_append_right _ hp)
    simp only [Poll.sweep]
    split
    · exact Marked.append (ho s c _) hrest
    · exact Marked.append (ho s c _) (ih hrest _)

theorem Obeys.chunkLoop (ho : Obeys h k)
    {nap : σ → List PollFd → Int → Option PollErr × σ} {deadline : Int} {fuel : Nat} {s : σ}
    {fds : List PollFd} {q : Polled σ} (hfds : Marked k fds)
    (hrun : Poll.chunkLoop h nap deadline fuel s fds = .ok q) : Marked k q.fds := by
  induction fuel generalizing s fds with
  | zero => cases hrun
  | succ fuel ih =>
    have hswept : Marked k (Poll.sweep h s (pieces fds.length fds)).fds := by
      refine ho.sweep ?_ s
      rwa [pieces_flatten _ _ (Nat.le_refl _)]
    rcases chunkLoop_succ hrun with ⟨_, rfl⟩ | ⟨_, _, _, rfl⟩ | ⟨_, s', ms, _, ⟨e, rfl⟩ | hrest⟩
    · exact hswept
    · exact hswept
    · exact hswept
    · exact ih hswept hrest

/-- What a call hands back is a marked array with the question it was asked. -/
theorem Obeys.run (ho : Obeys h k) {pkt : Packets} {fuel : Nat} {s : σ} {fds : List PollFd}
    {e : Entry} {t : e.Timeout} {q : Polled σ} (hrun : e.run h k pkt fuel s fds t = .ok q) :
    ∃ fds', SameQuery (e.asked k fds) fds' ∧ Marked k fds' ∧ q.fds = fds'.map (e.hand k) := by
  obtain ⟨q₁, q₂, hq₁, rfl, hends⟩ := Entry.run_eq_ok hrun
  refine ⟨q₂.fds, ?_, ?_, rfl⟩
  · rcases hends with ⟨rfl, _⟩ | ⟨_, _, d, hd, hchunk⟩
    · exact (hostPpoll_frame hq₁).2
    · exact (Entry.retry_swept hq₁ hd hchunk).sameQuery
  · have hmark := ho.hostPpoll hq₁
    rcases hends with ⟨rfl, _⟩ | ⟨_, _, d, _, hchunk⟩
    · exact hmark
    · exact ho.chunkLoop hmark hchunk

end

/-! ## The arrays that survive -/

/-- Whatever a host that keeps to the rule does, the caller gets its events back, and
nothing marked that it may not see. -/
def AlwaysRestores (e : Entry) (k : HostBits) (pkt : Packets) (fds : List PollFd) : Prop :=
  ∀ (σ : Type) (h : Cosmo σ), Obeys h k → ∀ (t : e.Timeout) (fuel : Nat) (s : σ) (q : Polled σ),
    e.run h k pkt fuel s fds t = .ok q → List.Forall₂ Kept fds q.fds

theorem asked_translated {e : Entry} (he : e ≠ .epollWait) (k : HostBits) (fds : List PollFd) :
    e.asked k fds = fds.map fun p => { p with events := evToHost k p.events } := by
  cases e with
  | poll => rfl
  | ppoll => rfl
  | epollWait => exact absurd rfl he

theorem shown_translated {e : Entry} (he : e ≠ .epollWait) (k : HostBits) (x : BitVec 16) :
    e.shown k x = evToLinux k x := by
  cases e with
  | poll => rfl
  | ppoll => rfl
  | epollWait => exact absurd rfl he

theorem restores_of_faithful {e : Entry} (he : e ≠ .epollWait) {k : HostBits} {pkt : Packets}
    {fds : List PollFd} (hfds : ∀ p ∈ fds, kPolls.Named p.events)
    (hfaith : ∀ p ∈ fds, Faithful k p.events) : AlwaysRestores e k pkt fds := by
  intro σ h ho t fuel s q hrun
  obtain ⟨fds', hsame, hmark, hq⟩ := ho.run hrun
  rw [asked_translated he, SameQuery, List.forall₂_map_left_iff] at hsame
  rw [hq, List.forall₂_map_right_iff]
  clear hq hrun
  induction hsame with
  | nil => exact .nil
  | @cons p p' ps ps' hp _ ih =>
    obtain ⟨hev, hrev⟩ := (faithful_iff (hfds p (List.mem_cons_self ..))).mpr
      (hfaith p (List.mem_cons_self ..))
    refine .cons ⟨?_, ?_⟩ (ih (fun r hr => hfds r (List.mem_cons_of_mem _ hr))
      (fun r hr => hfaith r (List.mem_cons_of_mem _ hr))
      (fun r hr => hmark r (List.mem_cons_of_mem _ hr)))
    · rw [Entry.hand, shown_translated he, ← hp.2]
      exact hev
    · have hown := hmark p' (List.mem_cons_self ..)
      rw [← hp.2] at hown
      simp only [Entry.hand, shown_translated he]
      exact hrev _ hown

/-- A host that marks all it may of what a given word asks for. -/
def loud (k : HostBits) (lin : BitVec 16) (_ : Int) (ev : BitVec 16) : BitVec 16 :=
  (ev &&& evToHost k lin) ||| alwaysBits k

theorem loud_named (k : HostBits) (lin : BitVec 16) (fd : Int) (ev : BitVec 16) (i : Nat)
    (hi : (loud k lin fd ev).getLsbD i = true) : ∃ n, (k n).getLsbD i = true := by
  simp only [loud, alwaysBits, BitVec.getLsbD_or, BitVec.getLsbD_and, Bool.or_eq_true,
    Bool.and_eq_true] at hi
  rcases hi with ⟨_, hi⟩ | (hi | hi) | hi
  · exact Naming.toHost_bit hi
  · exact ⟨_, hi⟩
  · exact ⟨_, hi⟩
  · exact ⟨_, hi⟩

theorem loud_obeys (k : HostBits) (lin : BitVec 16) :
    Obeys (stillHost anyLength.accepts (loud k lin)) k := by
  intro s fds t p hp
  rw [still_accepted rfl] at hp
  obtain ⟨p₀, _, rfl⟩ := List.mem_map.mp hp
  rw [within_iff]
  intro i hi
  simp only [loud, BitVec.getLsbD_or, BitVec.getLsbD_and, Bool.or_eq_true, Bool.and_eq_true] at hi ⊢
  exact hi.imp_left And.left

theorem unionReady_loud {k : HostBits} {lin : BitVec 16} {serve : Int → Option Int} {p : PollFd}
    (hp : p.events = evToHost k lin) :
    unionReady (fun _ : Unit => loud k lin) serve () p = evToHost k lin ||| alwaysBits k := by
  have hloud : ∀ fd, loud k lin fd p.events = evToHost k lin ||| alwaysBits k := by
    intro fd
    rw [loud, hp, BitVec.and_self]
  rw [unionReady]
  cases hserve : serve p.fd with
  | none => simp [hloud]
  | some fd6 => simp [hloud]

theorem faithful_of_restores {e : Entry} (he : e ≠ .epollWait) {k : HostBits} {pkt : Packets}
    {fds : List PollFd} (hfds : ∀ p ∈ fds, kPolls.Named p.events)
    (hall : AlwaysRestores e k pkt fds) : ∀ p ∈ fds, Faithful k p.events := by
  intro p hp
  have ho := loud_obeys k p.events
  have ht := still_truthful (L := anyLength) (loud_named k p.events)
  obtain ⟨q, n, hrun, hret⟩ :=
    still_reports anyLength (loud k p.events) e k pkt fds (.inr rfl) ht
  have hkept := hall Unit _ ho e.atOnce 1 () q hrun
  obtain ⟨fds', hsame, _, hq⟩ := ho.run hrun
  obtain ⟨_, hreports⟩ := (ht.run_reports hrun).1 n hret
  rw [asked_translated he, List.forall₂_map_left_iff] at hreports
  rw [asked_translated he, SameQuery, List.forall₂_map_left_iff] at hsame
  have hevents : List.Forall₂ (fun p p' => p'.events = evToLinux k (evToHost k p.events)) fds
      q.fds := by
    rw [hq, List.forall₂_map_right_iff]
    exact hsame.imp fun a b hab => by rw [Entry.hand, shown_translated he, ← hab.2]
  rw [← faithful_iff (hfds p hp)]
  constructor
  · obtain ⟨p', hk, hev⟩ := forall₂_both hkept hevents hp
    exact hev.symm.trans hk.1
  · intro x hx
    obtain ⟨p', hk, _, _, _, _, hrev⟩ := forall₂_both hkept hreports hp
    rw [unionReady_loud rfl, shown_translated he] at hrev
    have hmax := hk.2
    rw [hrev] at hmax
    exact within_trans (Naming.toLin_mono hx) hmax

/-- A call gives each entry's events back, and marks only what it may, exactly when the
host's numbering is faithful to what each entry asks for. -/
theorem restores_iff {e : Entry} (he : e ≠ .epollWait) (k : HostBits) (pkt : Packets)
    {fds : List PollFd} (hfds : ∀ p ∈ fds, kPolls.Named p.events) :
    AlwaysRestores e k pkt fds ↔ ∀ p ∈ fds, Faithful k p.events :=
  ⟨faithful_of_restores he hfds, restores_of_faithful he hfds⟩

/-! ## WSAPoll's numbering -/

/-- `POLLIN` is both of the `RD` names and `POLLOUT` is one of the `WR` names. -/
def winsockBits : HostBits
  | .POLLIN => 0x300#16
  | .POLLPRI => 0x400#16
  | .POLLOUT => 0x10#16
  | .POLLERR => 0x1#16
  | .POLLHUP => 0x2#16
  | .POLLNVAL => 0x4#16
  | .POLLRDNORM => 0x100#16
  | .POLLRDBAND => 0x200#16
  | .POLLWRNORM => 0x10#16
  | .POLLWRBAND => 0x20#16
  | .POLLRDHUP => 0x2#16

def readable : PollFd := ⟨0, kPolls.flag .POLLIN, 0#16⟩

theorem readable_named : ∀ p ∈ [readable], kPolls.Named p.events := by
  intro p hp i hi
  rw [List.mem_singleton.mp hp] at hi
  simp only [readable, Naming.flag, BitVec.getLsbD_twoPow, Bool.and_eq_true, decide_eq_true_eq] at hi
  exact ⟨.POLLIN, hi.2⟩

theorem readable_restores_iff :
    AlwaysRestores .poll winsockBits .empty [readable] ↔
      ∀ p ∈ [readable], Faithful winsockBits p.events :=
  restores_iff (by intro h; cases h) winsockBits .empty readable_named

/-- A caller that asks for `POLLIN` gets `POLLRDNORM` and `POLLRDBAND` added to its events. -/
theorem readable_not_restored : ¬ AlwaysRestores .poll winsockBits .empty [readable] := by
  intro hall
  have hfaith := faithful_of_restores (by intro h; cases h) readable_named hall readable
    (List.mem_singleton.mpr rfl)
  have hshare := (hfaith.2 .POLLRDNORM (by decide)).1 .POLLIN (by decide)
  revert hshare
  decide

end ApeShim.Poll
