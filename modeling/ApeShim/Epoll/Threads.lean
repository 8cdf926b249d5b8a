import ApeShim.Lib.Machine
import ApeShim.Epoll.Wait

/-!
One emulated epoll set with any number of threads inside `epoll_ctl`,
`epoll_wait` and the re-arm hooks. A label is one section under the set's lock,
one host call, or one local decision of `emu_wait`, so every interleaving the
lock allows is a sequence of labels. What the host answers (`poll`, `read`, the
clock, `realloc`) is part of the label: a run is a run for some answers, and a
theorem about every run is about every poll oracle.
-/

namespace ApeShim.Epoll
open Flags Keyed Trace

/-- The arguments of one `epoll_wait` that its loop keeps, and `bad_polls`. -/
structure WaitCall where
  maxevents : Nat
  forever : Bool
  badPolls : Nat
  deriving DecidableEq, Repr

/-- `deadline >= 0 && now_ms() >= deadline`. -/
def WaitCall.timeUp (w : WaitCall) (expired : Bool) : Bool := !w.forever && expired

/-- Where a thread stands in `emu_wait`. -/
inductive Phase
  | idle
  /-- the top of the loop, before the snapshot -/
  | top (w : WaitCall)
  /-- inside `__ape_shim_host_ppoll` -/
  | polling (w : WaitCall) (p : PollArray)
  /-- inside `poll_chunked` -/
  | chunked (w : WaitCall) (p : PollArray)
  /-- looking for bad descriptors, `todo` still to be probed -/
  | probing (w : WaitCall) (todo : List PollFd) (dropped : Nat)
  /-- a probe failed; about to lock and drop the entry of `fd` -/
  | dropping (w : WaitCall) (fd : Int) (todo : List PollFd) (dropped : Nat)
  /-- inside `drain` -/
  | draining (w : WaitCall) (p : PollArray) (rc : Nat)
  /-- about to match `revents` back to the list -/
  | matching (w : WaitCall) (p : PollArray) (rc : Nat)

/-- The array whose answers may still be delivered. -/
def Phase.array : Phase → Option PollArray
  | .polling _ p | .chunked _ p | .draining _ p _ | .matching _ p _ => some p
  | _ => none

inductive PollOutcome
  /-- the return value, then `revents` of the waker and of each descriptor -/
  | ready (rc : Nat) (waker : BitVec 16) (revents : Int → BitVec 16)
  | eintr
  | einval
  /-- EBADF or ENOTSOCK -/
  | ebadf
  | failed

inductive Label
  | ctl (epfd : Int) (op : CtlOp) (fd : Int) (ev : Option Event) (grown : Bool)
  /-- `rearm` on this set, from an I/O hook or the pipe-write hint -/
  | rearm (fd : Int) (bits : BitVec 32)
  /-- a thread that made a change writes its wake byte -/
  | kick
  | enter (t : Nat) (maxevents : Int) (forever : Bool)
  | snap (t : Nat) (grown : Bool)
  | poll (t : Nat) (o : PollOutcome) (expired : Bool)
  /-- a scan of `poll_chunked` found nothing and its nap ended -/
  | nap (t : Nat)
  | probe (t : Nat) (bad : Bool)
  | drop (t : Nat)
  | probed (t : Nat)
  | drainRead (t : Nat) (n : Nat)
  | drainDone (t : Nat) (interrupted expired : Bool)
  | deliver (t : Nat) (expired : Bool)
  /-- the host gives the number `fd` to an open file -/
  | opened (fd : Int) (file : Nat)
  | closed (fd : Int)

inductive Obs
  | added (fd : Int) (ev : Event)
  | modified (fd : Int) (ev : Event)
  | deleted (fd : Int)
  /-- the bad-descriptor probe removed the entry of `fd` -/
  | dropped (fd : Int)
  | rearmed (fd : Int) (bits : BitVec 32)
  | snapped (t : Nat)
  /-- `out[got] = ev`, matched to the entry of `fd` -/
  | stored (t : Nat) (fd : Int) (ev : Event)
  | closed (fd : Int)
  deriving DecidableEq

structure Config where
  k : Host
  /-- `s->handles[0]` -/
  handle : Int
  pipeCap : Nat

structure State where
  interest : Interest
  phase : Nat → Phase
  /-- unread bytes in the wake pipe -/
  pipe : Nat
  /-- threads that changed the list and have not written their wake byte -/
  kicks : Nat
  /-- the open file behind each number -/
  files : Int → Option Nat

namespace State

def init : State := ⟨Interest.empty, fun _ => .idle, 0, 0, fun _ => none⟩

def goto (s : State) (t : Nat) (p : Phase) : State := { s with phase := Function.update s.phase t p }

@[simp] theorem goto_files (s : State) (t : Nat) (p : Phase) : (s.goto t p).files = s.files := rfl
@[simp] theorem goto_phase (s : State) (t t' : Nat) (p : Phase) :
    (s.goto t p).phase t' = if t' = t then p else s.phase t' := by
  simp only [goto, Function.update_apply]

/-- `rearm` on this set: a change leaves one wake byte to be written. -/
def rearm (s : State) (fd : Int) (bits : BitVec 32) : State :=
  let r := rearmSet s.interest fd bits
  { s with interest := r.1, kicks := if r.2 then s.kicks + 1 else s.kicks }

end State

/-- `SHIM_POLL_CHUNK`. -/
def pollChunk : Nat := 32

/-- What `emu_wait` does with the result of its poll. EINVAL is retried in
chunks, once, and only when the array is larger than a chunk. -/
def afterPoll (k : Host) (direct : Bool) (w : WaitCall) (p : PollArray) (o : PollOutcome)
    (expired : Bool) : Phase :=
  match o with
  | .ready rc wk r =>
      if 0 < rc ∧ has wk k.POLLIN then .draining w (p.answered wk r) rc
      else .matching w (p.answered wk r) rc
  | .eintr => if w.timeUp expired then .matching w p 0 else .top w
  | .einval => if direct ∧ pollChunk < p.slots.length + 1 then .chunked w p else .idle
  | .ebadf => .probing w p.slots 0
  | .failed => .idle

/-- The wait returns, or was woken with nothing to report and loops. -/
def afterDeliver (w : WaitCall) (done : Bool) : Phase := if done then .idle else .top w

@[simp] theorem afterDeliver_array (w : WaitCall) (done : Bool) :
    (afterDeliver w done).array = none := by
  cases done <;> rfl

@[simp] theorem afterDeliver_ne_dropping (w w' : WaitCall) (done : Bool) (fd : Int)
    (todo : List PollFd) (n : Nat) : afterDeliver w done ≠ .dropping w' fd todo n := by
  cases done <;> simp [afterDeliver]

/-- What a successful `epoll_ctl` is seen to do. -/
def ctlObs (op : CtlOp) (fd : Int) (ev : Option Event) : List Obs :=
  match op, ev with
  | .add, some v => [.added fd v]
  | .mod, some v => [.modified fd v]
  | .del, _ => [.deleted fd]
  | _, _ => []

/-- One step of the thread `t` from the phase it is in. -/
def waitStep (c : Config) (s : State) (t : Nat) (a : Label) : Phase → Option (State × List Obs)
  | .idle =>
      match a with
      | .enter _ maxevents forever =>
          if maxevents ≤ 0 then some (s, [])
          else some (s.goto t (.top ⟨maxevents.toNat, forever, 0⟩), [])
      | _ => none
  | .top w =>
      match a with
      | .snap _ grown =>
          if grown then
            some (s.goto t (.polling w (snapshot c.k c.handle s.interest)), [.snapped t])
          else some (s.goto t .idle, [])
      | _ => none
  | .polling w p =>
      match a with
      | .poll _ o expired => some (s.goto t (afterPoll c.k true w p o expired), [])
      | _ => none
  | .chunked w p =>
      match a with
      | .poll _ o expired => some (s.goto t (afterPoll c.k false w p o expired), [])
      | .nap _ => some (s, [])
      | _ => none
  | .probing w (q :: todo) dropped =>
      match a with
      | .probe _ bad =>
          if bad then some (s.goto t (.dropping w q.fd todo dropped), [])
          else some (s.goto t (.probing w todo dropped), [])
      | _ => none
  | .probing w [] dropped =>
      match a with
      | .probed _ =>
          if 0 < dropped then some (s.goto t (.top w), [])
          else if w.badPolls + 1 ≤ 8 then
            some (s.goto t (.top { w with badPolls := w.badPolls + 1 }), [])
          else some (s.goto t .idle, [])
      | _ => none
  | .dropping w fd todo dropped =>
      match a with
      | .drop _ =>
          match s.interest.findEntry fd with
          | none => some (s.goto t (.probing w todo dropped), [])
          | some _ =>
              some ({ s.goto t (.probing w todo (dropped + 1)) with
                      interest := s.interest.remove fd }, [.dropped fd])
      | _ => none
  | .draining w p rc =>
      match a with
      | .drainRead _ n =>
          if 0 < n ∧ n ≤ 64 ∧ n ≤ s.pipe then some ({ s with pipe := s.pipe - n }, []) else none
      | .drainDone _ interrupted expired =>
          if s.pipe = 0 ∨ interrupted then
            if rc = 1 ∧ w.timeUp expired = false then some (s.goto t (.top w), [])
            else some (s.goto t (.matching w p (rc - 1)), [])
          else none
      | _ => none
  | .matching w p rc =>
      match a with
      | .deliver _ expired =>
          let r := if 0 < rc then deliverLoop c.k w.maxevents p.slots s.interest
            else (s.interest, [])
          some ({ s.goto t (afterDeliver w (!r.2.isEmpty || w.timeUp expired)) with
                  interest := r.1 }, r.2.reverse.map fun x => .stored t x.1 x.2)
      | _ => none

/-- The thread whose `epoll_wait` a label belongs to. -/
def Label.thread : Label → Option Nat
  | .enter t _ _ | .snap t _ | .poll t _ _ | .nap t | .probe t _ | .drop t | .probed t
  | .drainRead t _ | .drainDone t _ _ | .deliver t _ => some t
  | _ => none

def step (c : Config) (s : State) (a : Label) : Option (State × List Obs) :=
  match a.thread with
  | some t => waitStep c s t a (s.phase t)
  | none =>
      match a with
      | .ctl epfd op fd ev grown =>
          match emuCtl s.interest epfd op fd ev grown with
          | .error _ => some (s, [])
          | .ok i => some ({ s with interest := i, kicks := s.kicks + 1 }, ctlObs op fd ev)
      | .rearm fd bits => some (s.rearm fd bits, [.rearmed fd bits])
      | .kick =>
          if s.kicks = 0 then none
          else some ({ s with kicks := s.kicks - 1,
                              pipe := if s.pipe < c.pipeCap then s.pipe + 1 else s.pipe }, [])
      | .opened fd file =>
          if s.files fd = none then
            some ({ s with files := Function.update s.files fd (some file) }, [])
          else none
      | .closed fd =>
          if s.files fd = none then some (s, [])
          else some ({ s with files := Function.update s.files fd none }, [.closed fd])
      | _ => none

def machine (c : Config) : Machine State Label Obs := ⟨State.init, step c⟩

/-! ## What a step can do

Every later invariant is about the entry of one descriptor, about the arrays in
flight, or about who removes and who stores. Each is said once here. -/

/-- The descriptor whose entry an observation is about. -/
def Obs.about : Obs → Option Int
  | .added fd _ | .modified fd _ | .deleted fd | .dropped fd | .rearmed fd _
  | .stored _ fd _ => some fd
  | .snapped _ | .closed _ => none

/-- What a step does to the entry of `fd`, with what is observed. -/
inductive EntryStep (k : Host) (fd : Int) (before after : Option Entry) (out : List Obs) : Prop
  | same (h : after = before) (ho : ∀ o ∈ out, o.about ≠ some fd)
  | fresh (v : Event) (h : after = some (freshEntry fd v))
      (ho : out = [.added fd v] ∧ before = none ∨ out = [.modified fd v] ∧ before ≠ none)
  | gone (h : after = none) (hb : before ≠ none) (ho : out = [.deleted fd] ∨ out = [.dropped fd])
  | rearmed (bits : BitVec 32) (h : after = before.map (rearmEntry bits))
      (ho : out = [.rearmed fd bits])
  | disarmed (t : Nat) (ev : Event) (e : Entry) (hb : before = some e)
      (h : after = some (disarm k ev.events e)) (hm : .stored t fd ev ∈ out)
      (ho : ∀ o ∈ out, ∃ t fd ev, o = .stored t fd ev)

theorem EntryStep.quiet {k : Host} {fd : Int} {e : Option Entry} : EntryStep k fd e e [] :=
  .same rfl (by simp)

theorem ctl_entryStep {k : Host} {i i' : Interest} {epfd fd : Int} {op : CtlOp} {ev : Option Event}
    {grown : Bool} (h : emuCtl i epfd op fd ev grown = .ok i') (fd' : Int) :
    EntryStep k fd' (i.findEntry fd') (i'.findEntry fd') (ctlObs op fd ev) := by
  by_cases hfd : fd' = fd
  · subst hfd
    rcases emuCtl_ok h with ⟨v, rfl, (⟨rfl, hn⟩ | ⟨rfl, hn⟩), hk⟩ | ⟨rfl, hn, hk⟩
    · exact .fresh v (by simp [hk]) (Or.inl ⟨rfl, hn⟩)
    · exact .fresh v (by simp [hk]) (Or.inr ⟨rfl, hn⟩)
    · exact .gone (by simp [hk]) hn (Or.inl rfl)
  · have hne : fd ≠ fd' := fun h => hfd h.symm
    rcases emuCtl_ok h with ⟨v, rfl, (⟨rfl, -⟩ | ⟨rfl, -⟩), hk⟩ | ⟨rfl, -, hk⟩ <;>
      exact .same (by simp [hk, hfd]) (by simp [ctlObs, Obs.about, hne])

theorem rearm_entryStep {k : Host} (i : Interest) (fd : Int) (bits : BitVec 32) (fd' : Int) :
    EntryStep k fd' (i.findEntry fd') ((rearmSet i fd bits).1.findEntry fd') [.rearmed fd bits] := by
  by_cases hfd : fd' = fd
  · subst hfd
    exact .rearmed bits (by simp [rearmSet_find]) rfl
  · have hne : fd ≠ fd' := fun h => hfd h.symm
    exact .same (by simp [rearmSet_find, hfd]) (by simp [Obs.about, hne])

theorem deliver_entryStep {k : Host} {t room : Nat} {ps : List PollFd} {i : Interest}
    (hn : (ps.map PollFd.fd).Nodup) (fd : Int) :
    EntryStep k fd (i.findEntry fd) ((deliverLoop k room ps i).1.findEntry fd)
      ((deliverLoop k room ps i).2.reverse.map fun x => .stored t x.1 x.2) := by
  rcases @deliverLoop_find k ps room i hn fd with ⟨ev, e, hmem, he, hres⟩ | ⟨hno, hkeep⟩
  · refine .disarmed t ev e he hres ?_ ?_
    · exact List.mem_map.mpr ⟨(fd, ev), by simpa using hmem, rfl⟩
    · intro o ho
      obtain ⟨x, -, rfl⟩ := List.mem_map.mp ho
      exact ⟨_, _, _, rfl⟩
  · refine .same hkeep fun o ho => ?_
    obtain ⟨⟨fd', ev⟩, hx, rfl⟩ := List.mem_map.mp ho
    simp only [Obs.about, ne_eq, Option.some.injEq]
    rintro rfl
    exact hno ev (by simpa using hx)

/-- The only steps of a waiting thread that touch the list are the drop of a
bad descriptor and the delivery. -/
theorem waitStep_interest {c : Config} {s s' : State} {t : Nat} {a : Label} {ph : Phase}
    {out : List Obs} (h : waitStep c s t a ph = some (s', out)) :
    (s'.interest = s.interest ∧ ∀ o ∈ out, o.about = none) ∨
    (∃ w fd todo n, ph = .dropping w fd todo n ∧ s.interest.findEntry fd ≠ none ∧
      s'.interest = s.interest.remove fd ∧ out = [.dropped fd]) ∨
    (∃ w p rc, ph = .matching w p rc ∧
      s'.interest = (deliverLoop c.k w.maxevents p.slots s.interest).1 ∧
      out = (deliverLoop c.k w.maxevents p.slots s.interest).2.reverse.map
        fun x => .stored t x.1 x.2) := by
  cases ph with
  | dropping w fd todo n =>
    simp only [waitStep] at h
    split at h
    · split at h
      · cases h
        exact Or.inl ⟨rfl, by simp⟩
      · rename_i e he
        cases h
        exact Or.inr (Or.inl ⟨w, fd, todo, n, rfl, by simp [he], rfl, rfl⟩)
    · cases h
  | matching w p rc =>
    simp only [waitStep] at h
    split at h
    · by_cases hrc : 0 < rc
      · simp only [hrc, ↓reduceIte] at h
        cases h
        exact Or.inr (Or.inr ⟨w, p, rc, rfl, rfl, rfl⟩)
      · simp only [hrc, ↓reduceIte] at h
        cases h
        exact Or.inl ⟨rfl, by simp⟩
    · cases h
  | probing w todo n =>
    cases todo <;> simp only [waitStep] at h <;> repeat' split at h
    all_goals cases h
    all_goals exact Or.inl ⟨rfl, by simp⟩
  | _ =>
    simp only [waitStep] at h
    repeat' split at h
    all_goals cases h
    all_goals exact Or.inl ⟨rfl, by simp [Obs.about]⟩

theorem step_entry {c : Config} {s s' : State} {a : Label} {out : List Obs}
    (h : step c s a = some (s', out)) (fd : Int) :
    EntryStep c.k fd (s.interest.findEntry fd) (s'.interest.findEntry fd) out := by
  unfold step at h
  split at h
  · rename_i t _
    rcases waitStep_interest h with ⟨hi, ho⟩ | ⟨w, fd', todo, n, -, hf, hi, rfl⟩ | ⟨w, p, rc, -, hi, rfl⟩
    · exact .same (by rw [hi]) (fun o hm => by simp [ho o hm])
    · rw [hi]
      by_cases hfd : fd = fd'
      · subst hfd
        exact .gone (by simp) hf (Or.inr rfl)
      · have hne : fd' ≠ fd := fun h => hfd h.symm
        exact .same (by simp [hfd]) (by simp [Obs.about, hne])
    · rw [hi]
      exact deliver_entryStep p.unique fd
  · split at h
    · split at h
      · cases h; exact .quiet
      · rename_i hctl
        cases h
        exact ctl_entryStep hctl fd
    · cases h
      exact rearm_entryStep _ _ _ fd
    · split at h
      · cases h
      · cases h; exact .quiet
    · split at h
      · cases h; exact .quiet
      · cases h
    · split at h
      · cases h; exact .quiet
      · cases h; exact .same rfl (by simp [Obs.about])
    · cases h

/-- The same descriptors with the same requested bits, whatever was answered. -/
def PollArray.asksNoMore (p' p : PollArray) : Prop :=
  ∀ q' ∈ p'.slots, ∃ q ∈ p.slots, q.fd = q'.fd ∧ q.events = q'.events

theorem asksNoMore_refl (p : PollArray) : p.asksNoMore p := fun q hq => ⟨q, hq, rfl, rfl⟩

theorem asksNoMore_answered (p : PollArray) (wk : BitVec 16) (r : Int → BitVec 16) :
    (p.answered wk r).asksNoMore p := by
  intro q' hq'
  obtain ⟨q, hq, rfl⟩ := List.mem_map.mp hq'
  exact ⟨q, hq, rfl, rfl⟩

theorem afterPoll_array {k : Host} {direct expired : Bool} {w : WaitCall} {p q : PollArray}
    {o : PollOutcome} (h : (afterPoll k direct w p o expired).array = some q) : q.asksNoMore p := by
  unfold afterPoll at h
  repeat' split at h
  all_goals cases h
  all_goals first | exact asksNoMore_answered _ _ _ | exact asksNoMore_refl _

/-- A thread in `epoll_wait` moves alone. -/
theorem waitStep_others {c : Config} {s s' : State} {t : Nat} {a : Label} {ph : Phase}
    {out : List Obs} (h : waitStep c s t a ph = some (s', out)) (t' : Nat) (ht : t' ≠ t) :
    s'.phase t' = s.phase t' := by
  cases ph with
  | probing w todo n =>
    cases todo <;> simp only [waitStep] at h <;> repeat' split at h
    all_goals cases h
    all_goals simp [ht]
  | matching w p rc =>
    simp only [waitStep] at h
    split at h <;> cases h
    simp [State.goto, ht]
  | _ =>
    simp only [waitStep] at h
    repeat' split at h
    all_goals cases h
    all_goals simp [State.goto, ht]

/-- A thread's array in flight is the one it had, or a snapshot taken now. -/
inductive ArrayStep (c : Config) (s s' : State) (out : List Obs) (t : Nat) (p' : PollArray) : Prop
  | kept (p : PollArray) (h : (s.phase t).array = some p) (hp : p'.asksNoMore p)
  | taken (h : p' = snapshot c.k c.handle s.interest) (ho : out = [.snapped t])
      (hi : s'.interest = s.interest)

theorem waitStep_array {c : Config} {s s' : State} {t : Nat} {a : Label} {out : List Obs}
    (h : waitStep c s t a (s.phase t) = some (s', out)) (t' : Nat) {p' : PollArray}
    (hp : (s'.phase t').array = some p') :
    ArrayStep c s s' out t' p' := by
  have keep : (s'.phase t').array = (s.phase t').array → ArrayStep c s s' out t' p' :=
    fun he => .kept p' (by rw [← he, hp]) (asksNoMore_refl p')
  generalize hph : s.phase t = ph at h
  by_cases ht : t' = t
  · subst ht
    cases ph with
    | top w =>
      simp only [waitStep] at h
      repeat' split at h
      all_goals cases h
      · exact .taken (by simpa [Phase.array, eq_comm] using hp) rfl rfl
      · simp [Phase.array] at hp
    | polling w p =>
      simp only [waitStep] at h
      split at h <;> cases h
      simp only [State.goto_phase, ↓reduceIte] at hp
      exact .kept p (by simp [hph, Phase.array]) (afterPoll_array hp)
    | chunked w p =>
      simp only [waitStep] at h
      split at h <;> cases h
      · simp only [State.goto_phase, ↓reduceIte] at hp
        exact .kept p (by simp [hph, Phase.array]) (afterPoll_array hp)
      · exact keep rfl
    | draining w p rc =>
      simp only [waitStep] at h
      repeat' split at h
      all_goals cases h
      · exact keep rfl
      · simp [Phase.array] at hp
      · exact keep (by simp [hph, Phase.array])
    | matching w p rc =>
      simp only [waitStep] at h
      split at h <;> cases h
      simp at hp
    | probing w todo n =>
      cases todo <;> simp only [waitStep] at h <;> repeat' split at h
      all_goals cases h
      all_goals simp [Phase.array] at hp
    | _ =>
      simp only [waitStep] at h
      repeat' split at h
      all_goals cases h
      all_goals first | exact keep rfl | simp [Phase.array] at hp
  · exact keep (by rw [waitStep_others h t' ht])

theorem step_array {c : Config} {s s' : State} {a : Label} {out : List Obs}
    (h : step c s a = some (s', out)) {t : Nat} {p' : PollArray}
    (hp : (s'.phase t).array = some p') : ArrayStep c s s' out t p' := by
  unfold step at h
  split at h
  · exact waitStep_array h t hp
  · have hphase : s'.phase = s.phase := by
      repeat' split at h
      all_goals cases h
      all_goals rfl
    rw [hphase] at hp
    exact .kept p' hp (asksNoMore_refl p')

@[simp] theorem stored_not_mem_ctlObs (t : Nat) (fd fd' : Int) (ev : Event) (op : CtlOp)
    (ev' : Option Event) : .stored t fd ev ∉ ctlObs op fd' ev' := by
  cases op <;> cases ev' <;> simp [ctlObs]

/-- Who stores an event: a thread matching back its array. -/
theorem step_stored {c : Config} {s s' : State} {a : Label} {out : List Obs}
    (h : step c s a = some (s', out)) {t : Nat} {fd : Int} {ev : Event}
    (hm : .stored t fd ev ∈ out) :
    (∃ p, (s.phase t).array = some p ∧ ∃ q ∈ p.slots, q.fd = fd ∧ ev.events = readyEvents c.k q) ∧
      ∃ e, s.interest.findEntry fd = some e ∧ ev.data = e.data := by
  unfold step at h
  split at h
  · rename_i t' _
    rcases waitStep_interest h with ⟨-, ho⟩ | ⟨w, fd', todo, n, -, -, -, rfl⟩ | ⟨w, p, rc, hph, -, rfl⟩
    · exact absurd (ho _ hm) (by simp [Obs.about])
    · simp at hm
    · obtain ⟨x, hx, he⟩ := List.mem_map.mp hm
      cases he
      obtain ⟨q, hq, hfd, hev, hentry⟩ := deliverLoop_stored p.unique (List.mem_reverse.mp hx)
      exact ⟨⟨p, by rw [hph]; rfl, q, hq, hfd, hev⟩, hentry⟩
  · repeat' split at h
    all_goals cases h
    all_goals simp at hm

/-- Who registers a descriptor: ADD when it is not listed, MOD when it is. -/
theorem step_registers {c : Config} {s s' : State} {a : Label} {out : List Obs}
    (h : step c s a = some (s', out)) {fd : Int} {v : Event}
    (ho : out = [.added fd v] ∨ out = [.modified fd v]) :
    ∃ epfd op grown, a = .ctl epfd op fd (some v) grown ∧
      (op = .add ∧ s.interest.findEntry fd = none ∨ op = .mod ∧ s.interest.findEntry fd ≠ none) := by
  unfold step at h
  split at h
  · have hmem : Obs.added fd v ∈ out ∨ Obs.modified fd v ∈ out := by rcases ho with rfl | rfl <;> simp
    rcases waitStep_interest h with ⟨-, hq⟩ | ⟨w, fd', todo, n, -, -, -, rfl⟩ | ⟨w, p, rc, -, -, rfl⟩
    · rcases hmem with hm | hm <;> exact absurd (hq _ hm) (by simp [Obs.about])
    · simp at hmem
    · simp at hmem
  · split at h
    · rename_i epfd op fd' ev grown _
      split at h
      · cases h
        simp at ho
      · rename_i i hctl
        cases h
        rcases emuCtl_ok hctl with ⟨v', rfl, hop, -⟩ | ⟨rfl, -⟩
        · have hsame : fd' = fd ∧ v' = v := by
            rcases hop with ⟨rfl, -⟩ | ⟨rfl, -⟩ <;> simpa [ctlObs] using ho
          obtain ⟨rfl, rfl⟩ := hsame
          exact ⟨epfd, op, grown, rfl, hop⟩
        · simp [ctlObs] at ho
    all_goals
      repeat' split at h
      all_goals cases h
      all_goals simp at ho

@[simp] theorem dropped_not_mem_ctlObs (fd fd' : Int) (op : CtlOp) (ev : Option Event) :
    .dropped fd ∉ ctlObs op fd' ev := by
  cases op <;> cases ev <;> simp [ctlObs]

/-- Who drops an entry: a thread whose probe condemned the descriptor. -/
theorem step_dropped {c : Config} {s s' : State} {a : Label} {out : List Obs} {fd : Int}
    (h : step c s a = some (s', out)) (hm : .dropped fd ∈ out) :
    ∃ t w todo n, s.phase t = .dropping w fd todo n := by
  unfold step at h
  split at h
  · rename_i t _
    rcases waitStep_interest h with ⟨-, ho⟩ | ⟨w, fd', todo, n, hph, -, -, rfl⟩ | ⟨w, p, rc, -, -, rfl⟩
    · exact absurd (ho _ hm) (by simp [Obs.about])
    · simp only [List.mem_singleton, Obs.dropped.injEq] at hm
      exact ⟨t, w, todo, n, hm ▸ hph⟩
    · simp at hm
  · repeat' split at h
    all_goals cases h
    all_goals simp at hm

/-- Which thread stands condemning `fd`: one that did so before, or one whose
probe of `fd` has just failed. -/
theorem waitStep_dropping {c : Config} {s s' : State} {t t' : Nat} {a : Label} {out : List Obs}
    (h : waitStep c s t a (s.phase t) = some (s', out)) {w : WaitCall} {fd : Int}
    {todo : List PollFd} {n : Nat} (hp : s'.phase t' = .dropping w fd todo n) :
    s.phase t' = .dropping w fd todo n ∨
    (∃ q u, a = .probe u true ∧ t' = t ∧ s.phase t = .probing w (q :: todo) n ∧ q.fd = fd ∧
      s'.interest = s.interest) := by
  generalize hph : s.phase t = ph at h
  by_cases ht : t' = t
  · subst ht
    cases ph with
    | probing w todo n =>
      cases todo with
      | nil =>
        simp only [waitStep] at h
        repeat' split at h
        all_goals cases h
        all_goals simp at hp
      | cons q todo =>
        simp only [waitStep] at h
        split at h
        · split at h
          · rename_i u bad hbad
            subst hbad
            cases h
            simp only [State.goto_phase, ↓reduceIte, Phase.dropping.injEq] at hp
            obtain ⟨rfl, rfl, rfl, rfl⟩ := hp
            exact Or.inr ⟨q, u, rfl, rfl, rfl, rfl, rfl⟩
          · cases h
            simp at hp
        · cases h
    | polling w p =>
      simp only [waitStep] at h
      split at h <;> cases h
      simp only [State.goto_phase, ↓reduceIte, afterPoll] at hp
      repeat' split at hp
      all_goals cases hp
    | chunked w p =>
      simp only [waitStep] at h
      split at h <;> cases h
      · simp only [State.goto_phase, ↓reduceIte, afterPoll] at hp
        repeat' split at hp
        all_goals cases hp
      · exact Or.inl hp
    | matching w p rc =>
      simp only [waitStep] at h
      split at h <;> cases h
      simp at hp
    | _ =>
      simp only [waitStep] at h
      repeat' split at h
      all_goals cases h
      all_goals simp_all
  · rw [waitStep_others h t' ht] at hp
    exact Or.inl hp

end ApeShim.Epoll
