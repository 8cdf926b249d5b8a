import ApeShim.Epoll.Threads

/-!
Which registration a delivered event belongs to. `emu_wait` matches answers
back to the list by descriptor number, so an answer is delivered under the
registration that is current at delivery. `Genuine` says that this is the one
the poll was made for, and that the event stays within its mask.

The code guarantees it only while no descriptor of an array in flight is
registered anew (`Calm`); `stale_answer_delivered` is a run in which one is.
-/

namespace ApeShim.Epoll
open Flags Keyed Trace

/-- The registration of `fd` begins, changes or ends. -/
def changes (fd : Int) : Obs → Prop
  | .added fd' _ | .modified fd' _ | .deleted fd' | .dropped fd' => fd' = fd
  | _ => False

def snapshotOf (t : Nat) : Obs → Prop
  | .snapped t' => t' = t
  | _ => False

/-- The registration of `fd` after a history, read newest first. -/
def registration (fd : Int) : List Obs → Option Event
  | [] => none
  | .added fd' ev :: older => if fd' = fd then some ev else registration fd older
  | .modified fd' ev :: older => if fd' = fd then some ev else registration fd older
  | .deleted fd' :: older => if fd' = fd then none else registration fd older
  | .dropped fd' :: older => if fd' = fd then none else registration fd older
  | _ :: older => registration fd older

/-- The event belongs to a registration that has been current ever since the
snapshot its thread polled: it carries that registration's data, and its bits
are among that registration's mask, ERR and HUP. -/
def Genuine (t : Nat) (fd : Int) (ev : Event) (older : List Obs) : Prop :=
  Since (changes fd) (snapshotOf t) older ∧
    ∃ r, registration fd older = some r ∧ ev.data = r.data ∧
      within ev.events (r.events ||| EPOLLERR ||| EPOLLHUP) = true

/-- Every event stored in the history is genuine. -/
def AllGenuine : List Obs → Prop
  | [] => True
  | .stored t fd ev :: older => Genuine t fd ev older ∧ AllGenuine older
  | _ :: older => AllGenuine older

/-! ## When the code meets it -/

/-- Epoll bits and the host bits `poll_to_epoll` reads them from. -/
def pollBits (k : Host) : List (BitVec 32 × BitVec 16) :=
  [(EPOLLIN, k.POLLIN), (EPOLLPRI, k.POLLPRI), (EPOLLOUT, k.POLLOUT), (EPOLLRDHUP, k.POLLRDHUP)]

/-- A bit the mask does not ask for has a host bit apart from those that `poll`
may answer: on a host whose POLLRDHUP is its POLLHUP, the mask asks for RDHUP. -/
def Host.separates (k : Host) (mask : BitVec 32) : Prop :=
  ∀ x ∈ pollBits k, has mask x.1 = true ∨
    has (epollToPoll k mask (ARM_IN ||| ARM_OUT) ||| k.POLLERR ||| k.POLLHUP ||| k.POLLNVAL) x.2 = false

/-- No descriptor is added or modified while a thread may still deliver answers
polled for it, and every mask keeps its bits apart. -/
def Calm (k : Host) (s : State) : Label → Prop
  | .ctl _ op fd (some ev) _ =>
      (op = .add ∧ s.interest.findEntry fd = none ∨ op = .mod ∧ s.interest.findEntry fd ≠ none) →
        (∀ t p, (s.phase t).array = some p → ∀ q ∈ p.slots, q.fd ≠ fd) ∧ k.separates ev.events
  | _ => True

theorem epollToPoll_within (k : Host) (e armed : BitVec 32) :
    within (epollToPoll k e armed) (epollToPoll k e (ARM_IN ||| ARM_OUT)) = true := by
  have hin : has (ARM_IN ||| ARM_OUT) ARM_IN = true := by decide
  have hout : has (ARM_IN ||| ARM_OUT) ARM_OUT = true := by decide
  unfold epollToPoll
  repeat' apply raise_mono
  all_goals simp_all

theorem within_of_has_flag {mask b : BitVec 32}
    (hb : b = EPOLLIN ∨ b = EPOLLPRI ∨ b = EPOLLOUT ∨ b = EPOLLRDHUP) (h : has mask b = true) :
    within b mask = true := by
  have hpow : b = BitVec.twoPow 32 0 ∨ b = BitVec.twoPow 32 1 ∨ b = BitVec.twoPow 32 2 ∨
      b = BitVec.twoPow 32 13 := hb
  rcases hpow with rfl | rfl | rfl | rfl <;> exact within_of_has_twoPow h

/-- The bits delivered for a slot stay within the mask it was made from. -/
theorem readyEvents_within {k : Host} {mask : BitVec 32} {q : PollFd} (hsep : k.separates mask)
    (hq : within q.events (epollToPoll k mask (ARM_IN ||| ARM_OUT)) = true) :
    within (readyEvents k q) (mask ||| EPOLLERR ||| EPOLLHUP) = true := by
  have hready : within (readyBits k q)
      (epollToPoll k mask (ARM_IN ||| ARM_OUT) ||| k.POLLERR ||| k.POLLHUP ||| k.POLLNVAL) = true :=
    within_trans (within_and_right _ _)
      (within_or_mono (within_or_mono (within_or_mono hq)))
  have hbit : ∀ x ∈ pollBits k, has (readyBits k q) x.2 = true →
      within x.1 (mask ||| EPOLLERR ||| EPOLLHUP) = true := by
    intro x hx hhas
    rcases hsep x hx with hmask | hnot
    · refine within_or_of_left (within_or_of_left (within_of_has_flag ?_ hmask))
      simp only [pollBits, List.mem_cons, List.not_mem_nil, or_false] at hx
      rcases hx with rfl | rfl | rfl | rfl <;> simp
    · rw [has_mono hready hhas] at hnot
      cases hnot
  have herr : within EPOLLERR (mask ||| EPOLLERR ||| EPOLLHUP) = true :=
    within_or_of_left (within_or_of_right (within_refl _))
  have hhup : within EPOLLHUP (mask ||| EPOLLERR ||| EPOLLHUP) = true :=
    within_or_of_right (within_refl _)
  unfold readyEvents pollToEpoll
  refine within_raise (within_raise (within_raise (within_raise (within_raise (within_raise
    (within_raise ?_ ?_) ?_) ?_) fun _ => herr) fun _ => hhup) ?_) fun _ => herr
  · simp [within_iff]
  · exact hbit (EPOLLIN, k.POLLIN) (by simp [pollBits])
  · exact hbit (EPOLLOUT, k.POLLOUT) (by simp [pollBits])
  · exact hbit (EPOLLPRI, k.POLLPRI) (by simp [pollBits])
  · exact hbit (EPOLLRDHUP, k.POLLRDHUP) (by simp [pollBits])

/-! ## Histories -/

theorem changes_about {fd : Int} {o : Obs} (h : changes fd o) : o.about = some fd := by
  cases o <;> simp_all [changes, Obs.about]

theorem registration_append {fd : Int} {log : List Obs} :
    ∀ out : List Obs, (∀ o ∈ out, ¬ changes fd o) →
      registration fd (out ++ log) = registration fd log
  | [], _ => rfl
  | o :: out, h => by
    have ih := @registration_append fd log out (fun x hx => h x (by simp [hx]))
    have ho := h o (by simp)
    cases o <;> simp_all [registration, changes]

theorem Genuine.append {t : Nat} {fd : Int} {ev : Event} {log : List Obs}
    (h : Genuine t fd ev log) (out : List Obs) (ho : ∀ o ∈ out, ¬ changes fd o) :
    Genuine t fd ev (out ++ log) := by
  obtain ⟨hs, r, hr, hd, hw⟩ := h
  exact ⟨hs.append out ho, r, by rw [registration_append out ho, hr], hd, hw⟩

theorem allGenuine_append {log : List Obs} (hlog : AllGenuine log) :
    ∀ out : List Obs, (∀ t fd ev, .stored t fd ev ∈ out → Genuine t fd ev log) →
      (∀ t fd ev, .stored t fd ev ∈ out → ∀ o ∈ out, ¬ changes fd o) → AllGenuine (out ++ log)
  | [], _, _ => hlog
  | o :: out, hg, hc => by
    have ih := allGenuine_append hlog out (fun t fd ev hm => hg t fd ev (by simp [hm]))
      (fun t fd ev hm x hx => hc t fd ev (by simp [hm]) x (by simp [hx]))
    cases o with
    | stored t fd ev =>
      exact ⟨(hg t fd ev (by simp)).append out fun x hx => hc t fd ev (by simp) x (by simp [hx]), ih⟩
    | _ => exact ih

/-! ## The invariant -/

def Entry.registered (e : Entry) : Event := ⟨e.events, e.data⟩

/-- The list is the history's registrations, and an answer in flight is for a
registration that has not changed since its snapshot. -/
structure RegInv (k : Host) (s : State) (log : List Obs) : Prop where
  list : ∀ fd, (s.interest.findEntry fd).map Entry.registered = registration fd log
  apart : ∀ fd e, s.interest.findEntry fd = some e → k.separates e.events
  flight : ∀ t p, (s.phase t).array = some p → ∀ q ∈ p.slots, ∀ e,
    s.interest.findEntry q.fd = some e →
      Since (changes q.fd) (snapshotOf t) log ∧
        within q.events (epollToPoll k e.events (ARM_IN ||| ARM_OUT)) = true
  stored : AllGenuine log

/-- A step that leaves the registration of `fd` alone. -/
theorem entryStep_keeps {k : Host} {fd : Int} {before after : Option Entry} {out : List Obs}
    (h : EntryStep k fd before after out) {e : Entry} (he : after = some e)
    (hnew : ∀ v, out ≠ [.added fd v] ∧ out ≠ [.modified fd v]) :
    (∃ e₀, before = some e₀ ∧ e.registered = e₀.registered) ∧ ∀ o ∈ out, ¬ changes fd o := by
  cases h with
  | same h ho => exact ⟨⟨e, by rw [← h, he], rfl⟩, fun o hm hc => ho o hm (changes_about hc)⟩
  | fresh v h ho =>
    rcases ho with ⟨ho, -⟩ | ⟨ho, -⟩
    · exact absurd ho (hnew v).1
    · exact absurd ho (hnew v).2
  | gone h => rw [h] at he; cases he
  | rearmed bits h ho =>
    rw [h] at he
    obtain ⟨e₀, he₀, rfl⟩ := Option.map_eq_some_iff.mp he
    exact ⟨⟨e₀, he₀, by simp [Entry.registered]⟩, by simp [ho, changes]⟩
  | disarmed t ev e₀ hb h hm ho =>
    rw [h] at he
    cases he
    refine ⟨⟨e₀, hb, by simp [Entry.registered]⟩, fun o hmo hc => ?_⟩
    obtain ⟨_, _, _, rfl⟩ := ho o hmo
    exact hc

theorem regInv_list {k : Host} {fd : Int} {before after : Option Entry} {out log : List Obs}
    (h : EntryStep k fd before after out)
    (hb : before.map Entry.registered = registration fd log) :
    after.map Entry.registered = registration fd (out ++ log) := by
  cases h with
  | same h ho =>
    rw [h, hb, registration_append out fun o hm hc => ho o hm (changes_about hc)]
  | fresh v h ho =>
    rw [h]
    rcases ho with ⟨rfl, -⟩ | ⟨rfl, -⟩ <;>
      simp [registration, Entry.registered, freshEntry]
  | gone h _ ho =>
    rw [h]
    rcases ho with rfl | rfl <;> simp [registration]
  | rearmed bits h ho =>
    rw [h, ho, registration_append [_] (by simp [changes]), Option.map_map, ← hb]
    congr 1
    funext e
    simp [Entry.registered]
  | disarmed t ev e₀ hb' h hm ho =>
    rw [h, registration_append out, ← hb, hb']
    · simp [Entry.registered]
    · intro o hmo hc
      obtain ⟨_, _, _, rfl⟩ := ho o hmo
      exact hc

theorem regInv_step {c : Config} {s s' : State} {log : List Obs} {a : Label} {out : List Obs}
    (hinv : RegInv c.k s log) (hcalm : Calm c.k s a) (h : step c s a = some (s', out)) :
    RegInv c.k s' (out ++ log) := by
  -- a registration that starts in this step was let through by `Calm`
  have hnew : ∀ fd v, out = [.added fd v] ∨ out = [.modified fd v] →
      (∀ t p, (s.phase t).array = some p → ∀ q ∈ p.slots, q.fd ≠ fd) ∧ c.k.separates v.events := by
    intro fd v ho
    obtain ⟨epfd, op, grown, rfl, hop⟩ := step_registers h ho
    exact hcalm hop
  refine ⟨fun fd => regInv_list (step_entry h fd) (hinv.list fd), ?_, ?_, ?_⟩
  · intro fd e he
    by_cases hreg : ∃ v, out = [.added fd v] ∨ out = [.modified fd v]
    · obtain ⟨v, ho⟩ := hreg
      have hl := regInv_list (step_entry h fd) (hinv.list fd)
      have hv : e.registered = v := by
        rcases ho with rfl | rfl <;> simpa [he, registration] using hl
      have hev : e.events = v.events := congrArg Event.events hv
      rw [hev]
      exact (hnew fd v ho).2
    · simp only [not_exists, not_or] at hreg
      obtain ⟨⟨e₀, he₀, heq⟩, -⟩ := entryStep_keeps (step_entry h fd) he fun v => hreg v
      have hev : e.events = e₀.events := congrArg Event.events heq
      rw [hev]
      exact hinv.apart fd e₀ he₀
  · intro t p' hp' q' hq' e he
    cases step_array h hp' with
    | kept p hp hsame =>
      obtain ⟨q, hq, hfd, hev⟩ := hsame q' hq'
      have hold : ∀ v, out ≠ [.added q'.fd v] ∧ out ≠ [.modified q'.fd v] := by
        intro v
        constructor
        · exact fun ho => (hnew _ v (Or.inl ho)).1 t p hp q hq hfd
        · exact fun ho => (hnew _ v (Or.inr ho)).1 t p hp q hq hfd
      obtain ⟨⟨e₀, he₀, heq⟩, hquiet⟩ := entryStep_keeps (step_entry h q'.fd) he hold
      obtain ⟨hs, hw⟩ := hinv.flight t p hp q hq e₀ (hfd ▸ he₀)
      have hevents : e.events = e₀.events := congrArg Event.events heq
      rw [hfd] at hs
      rw [hevents, ← hev]
      exact ⟨hs.append out hquiet, hw⟩
    | taken hsnap ho hi =>
      subst hsnap ho
      obtain ⟨e₀, he₀, hslot⟩ := mem_snapshot.mp hq'
      rw [hi, he₀] at he
      cases he
      refine ⟨Or.inl rfl, ?_⟩
      rw [(snapSlot_eq_some hslot).2]
      exact epollToPoll_within _ _ _
  · refine allGenuine_append hinv.stored out ?_ ?_
    · intro t fd ev hm
      obtain ⟨⟨p, hp, q, hq, hfd, hev⟩, e, he, hdata⟩ := step_stored h hm
      obtain ⟨hs, hw⟩ := hinv.flight t p hp q hq e (hfd.symm ▸ he)
      refine ⟨hfd ▸ hs, e.registered, by rw [← hinv.list fd, he]; rfl, hdata, ?_⟩
      rw [hev]
      exact readyEvents_within (hinv.apart fd e he) hw
    · -- whoever stores only stores
      intro t fd ev hm o ho hc
      have hab := changes_about hc
      cases step_entry h fd with
      | same _ hq => exact hq _ hm rfl
      | fresh v _ hv => rcases hv with ⟨rfl, -⟩ | ⟨rfl, -⟩ <;> simp at hm
      | gone _ _ hv => rcases hv with rfl | rfl <;> simp at hm
      | rearmed bits _ hv => subst hv; simp at hm
      | disarmed _ _ _ _ _ _ hall =>
        obtain ⟨_, _, _, rfl⟩ := hall o ho
        exact hc

/-- **Deliveries are genuine in calm runs.** While no descriptor of an array in
flight is added or modified, every event a wait delivers, in any interleaving
and for any answers of the poll, belongs to a registration current from the
snapshot to the delivery, with its data and within its mask. -/
theorem delivered_events_genuine (c : Config) {s : State} {log : List Obs}
    (h : (machine c).Run (Calm c.k) s log) : AllGenuine log := by
  have hinv : RegInv c.k s log := by
    refine h.invariant (P := RegInv c.k) ?_ fun s log a s' out hinv hcalm hs =>
      regInv_step hinv hcalm hs
    refine ⟨fun fd => rfl, fun fd e he => ?_, fun t p hp => ?_, trivial⟩
    · cases he
    · cases hp
  exact hinv.stored

/-- Linux's values keep every mask apart. -/
theorem plainHost_separates (mask : BitVec 32) : plainHost.separates mask := by
  intro x hx
  simp only [pollBits, plainHost, List.mem_cons, List.not_mem_nil, or_false] at hx
  cases hm : has mask x.1 with
  | true => exact Or.inl rfl
  | false =>
    right
    rcases hx with rfl | rfl | rfl | rfl <;>
      simp only [epollToPoll, plainHost, hm, Bool.and_false, has_or_left, has_raise]
    all_goals simp [has]

/-- A calm run that delivers. -/
theorem delivered_events_genuine_once :
    ∃ s log, (machine ⟨plainHost, 3, 16⟩).Run (Calm plainHost) s log ∧
      .stored 0 5 ⟨EPOLLIN, 7⟩ ∈ log ∧ AllGenuine log := by
  have hstart : (machine ⟨plainHost, 3, 16⟩).Run (Calm plainHost) State.init [] := .start
  have hadded := Machine.Run.next (a := Label.ctl 3 .add 5 (some ⟨EPOLLIN ||| EPOLLET, 7⟩) true)
    hstart (fun _ => ⟨fun _ _ hp => (by cases hp), plainHost_separates _⟩) rfl
  obtain ⟨s, log, hrun, hp⟩ := hadded.extend
    (fun _ a => match a with | .ctl _ _ _ _ _ => false | _ => true)
    (fun s a ha => by cases a <;> first | exact trivial | cases ha)
    [.kick, .enter 0 1 true, .snap 0 true, .poll 0 (.ready 1 0 fun _ => 1) false, .deliver 0 false]
    (fun _ log => decide (.stored 0 5 ⟨EPOLLIN, 7⟩ ∈ log)) (by decide)
  exact ⟨s, log, hrun, of_decide_eq_true hp, delivered_events_genuine _ hrun⟩

/-- The race: readiness polled for `IN` with data 1 is delivered after a MOD to
a one-shot `OUT` with data 2. The event carries the new data and a bit the new
mask does not have, and the new one-shot is spent. -/
theorem stale_answer_delivered :
    ∃ s log, (machine ⟨plainHost, 3, 16⟩).Run anyStep s log ∧ ¬ AllGenuine log ∧
      .stored 0 5 ⟨EPOLLIN, 2⟩ ∈ log ∧
      ∃ e ∈ s.interest.entries, e.fd = 5 ∧ e.oneshot = true ∧ e.armed = 0#32 := by
  have hstart : (machine ⟨plainHost, 3, 16⟩).Run anyStep State.init [] := .start
  obtain ⟨s, log, hrun, hp⟩ := hstart.extend (fun _ _ => true) (fun _ _ _ => trivial)
    [.ctl 3 .add 5 (some ⟨EPOLLIN ||| EPOLLET, 1⟩) true, .enter 0 1 true, .snap 0 true,
      .poll 0 (.ready 1 0 fun _ => 1) false,
      .ctl 3 .mod 5 (some ⟨EPOLLOUT ||| EPOLLONESHOT, 2⟩) true, .deliver 0 false]
    (fun s log => decide (log = [.stored 0 5 ⟨EPOLLIN, 2⟩,
        .modified 5 ⟨EPOLLOUT ||| EPOLLONESHOT, 2⟩, .snapped 0, .added 5 ⟨EPOLLIN ||| EPOLLET, 1⟩] ∧
      ∃ e ∈ s.interest.entries, e.fd = 5 ∧ e.oneshot = true ∧ e.armed = 0#32)) (by decide)
  obtain ⟨rfl, hspent⟩ := of_decide_eq_true hp
  refine ⟨s, _, hrun, ?_, by simp, hspent⟩
  rintro ⟨⟨hsince, -⟩, -⟩
  simp [Since, changes, snapshotOf] at hsince

end ApeShim.Epoll
