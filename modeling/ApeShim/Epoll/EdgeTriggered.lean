import ApeShim.Epoll.Threads

/-!
The edge-triggered emulation never swallows readiness. A direction of an
edge-triggered entry is disarmed only together with an event handed to a
caller, a one-shot entry is disarmed only by an event delivered since its
registration, and entries cut off by `maxevents` stay as they were.
-/

namespace ApeShim.Epoll
open Flags Keyed Trace

/-- The armed bit `d` of the entry of `fd` is set: ADD, MOD or a re-arm. -/
def setsArmed (fd : Int) (d : BitVec 32) : Obs → Prop
  | .added fd' _ | .modified fd' _ => fd' = fd
  | .rearmed fd' bits => fd' = fd ∧ has bits d = true
  | _ => False

/-- A caller got an event for `fd` with a bit of direction `d`, ERR or HUP. -/
def reports (fd : Int) (d : BitVec 32) : Obs → Prop
  | .stored _ fd' ev => fd' = fd ∧ reportsDirection d ev.events = true
  | _ => False

def registers (fd : Int) : Obs → Prop
  | .added fd' _ | .modified fd' _ => fd' = fd
  | _ => False

def delivers (fd : Int) : Obs → Prop
  | .stored _ fd' _ => fd' = fd
  | _ => False

/-- Whatever is disarmed has been reported since it was last armed. -/
structure Accounted (fd : Int) (e : Entry) (log : List Obs) : Prop where
  edge : e.edge = true → e.oneshot = false → ∀ d, d = ARM_IN ∨ d = ARM_OUT →
    has e.armed d = false → Since (setsArmed fd d) (reports fd d) log
  oneshot : e.oneshot = true → ∀ d, d = ARM_IN ∨ d = ARM_OUT →
    has e.armed d = false → Since (registers fd) (delivers fd) log

theorem has_armed_both {d : BitVec 32} (hd : d = ARM_IN ∨ d = ARM_OUT) :
    has (ARM_IN ||| ARM_OUT) d = true := by
  rcases hd with rfl | rfl <;> decide

theorem setsArmed_about {fd : Int} {d : BitVec 32} {o : Obs} (h : setsArmed fd d o) :
    o.about = some fd := by
  cases o <;> simp_all [setsArmed, Obs.about]

theorem registers_about {fd : Int} {o : Obs} (h : registers fd o) : o.about = some fd := by
  cases o <;> simp_all [registers, Obs.about]

theorem Accounted.fresh (fd : Int) (v : Event) (log : List Obs) :
    Accounted fd (freshEntry fd v) log where
  edge := by
    intro _ _ d hd hc
    have : has (ARM_IN ||| ARM_OUT) d = false := hc
    rw [has_armed_both hd] at this
    cases this
  oneshot := by
    intro _ d hd hc
    have : has (ARM_IN ||| ARM_OUT) d = false := hc
    rw [has_armed_both hd] at this
    cases this

/-- Observations about other descriptors change nothing for `fd`. -/
theorem Accounted.append {fd : Int} {e : Entry} {log out : List Obs} (h : Accounted fd e log)
    (ho : ∀ o ∈ out, o.about ≠ some fd) : Accounted fd e (out ++ log) where
  edge := fun he h1 d hd hc =>
    (h.edge he h1 d hd hc).append out fun o hm hs => ho o hm (setsArmed_about hs)
  oneshot := fun h1 d hd hc =>
    (h.oneshot h1 d hd hc).append out fun o hm hs => ho o hm (registers_about hs)

theorem Accounted.rearm {fd : Int} {e : Entry} {log : List Obs} (bits : BitVec 32)
    (h : Accounted fd e log) : Accounted fd (rearmEntry bits e) (.rearmed fd bits :: log) where
  edge := by
    intro he h1 d hd hc
    have he' : e.edge = true := by simpa [Entry.edge] using he
    have h1' : e.oneshot = false := by simpa [Entry.oneshot] using h1
    simp only [rearmEntry, he', h1', Bool.not_false, Bool.and_self, ↓reduceIte, has_or_left,
      Bool.or_eq_false_iff] at hc
    exact (h.edge he' h1' d hd hc.1).append [_] (by simp [setsArmed, hc.2])
  oneshot := by
    intro h1 d hd hc
    have h1' : e.oneshot = true := by simpa [Entry.oneshot] using h1
    simp only [rearmEntry, h1', Bool.not_true, Bool.and_false, Bool.false_eq_true,
      ↓reduceIte] at hc
    exact (h.oneshot h1' d hd hc).append [_] (by simp [registers])

theorem Accounted.disarm {k : Host} {fd : Int} {e : Entry} {log out : List Obs} {t : Nat}
    {ev : Event} (h : Accounted fd e log) (hm : .stored t fd ev ∈ out)
    (ho : ∀ o ∈ out, ∃ t fd ev, o = Obs.stored t fd ev) :
    Accounted fd (disarm k ev.events e) (out ++ log) where
  edge := by
    intro he h1 d hd hc
    have he' : e.edge = true := by simpa [Entry.edge] using he
    have h1' : e.oneshot = false := by simpa [Entry.oneshot] using h1
    have hquiet : ∀ o ∈ out, ¬ setsArmed fd d o := by
      intro o hmo hs
      obtain ⟨_, _, _, rfl⟩ := ho o hmo
      exact hs
    -- either the bit was already clear, or this very event reports it
    cases ha : has e.armed d with
    | false => exact (h.edge he' h1' d hd ha).append out hquiet
    | true => exact Since.of_mem (show reports fd d (.stored t fd ev) from
        ⟨rfl, disarm_keeps hd h1' ha hc⟩) out hm hquiet
  oneshot := by
    intro h1 d hd hc
    refine Since.of_mem (show delivers fd (.stored t fd ev) from rfl) out hm ?_
    intro o hmo hs
    obtain ⟨_, _, _, rfl⟩ := ho o hmo
    exact hs

theorem accounted_run {c : Config} {s : State} {log : List Obs}
    (h : (machine c).Run anyStep s log) :
    ∀ fd e, s.interest.findEntry fd = some e → Accounted fd e log := by
  refine h.invariant (P := fun s log => ∀ fd e, s.interest.findEntry fd = some e →
    Accounted fd e log) ?_ ?_
  · intro fd e he
    cases he
  · intro s log a s' out ih _ hs fd e he
    cases step_entry hs fd with
    | same h ho => exact (ih fd e (h ▸ he)).append ho
    | fresh v h ho =>
      rw [h] at he
      cases he
      exact .fresh fd v _
    | gone h =>
      rw [h] at he
      cases he
    | rearmed bits h ho =>
      rw [h] at he
      obtain ⟨e₀, he₀, rfl⟩ := Option.map_eq_some_iff.mp he
      subst ho
      exact (ih fd e₀ he₀).rearm bits
    | disarmed t ev e₀ hb h hm ho =>
      rw [h] at he
      cases he
      exact (ih fd e₀ hb).disarm hm ho

/-- A delivery leaves every entry behind the cut as it was. -/
theorem cutoff_keeps {c : Config} {s s' : State} {t : Nat} {expired : Bool} {out : List Obs}
    {w : WaitCall} {p : PollArray} {rc : Nat} {before after : List PollFd} {q : PollFd}
    (hph : s.phase t = .matching w p rc) (hs : step c s (.deliver t expired) = some (s', out))
    (hsplit : p.slots = before ++ q :: after)
    (hfull : (deliverLoop c.k w.maxevents before s.interest).2.length = w.maxevents) :
    s'.interest.findEntry q.fd = s.interest.findEntry q.fd := by
  simp only [step, Label.thread, hph] at hs
  rcases waitStep_interest hs with ⟨hi, -⟩ | ⟨_, _, _, _, hd, -⟩ | ⟨w', p', rc', hm, hi, -⟩
  · rw [hi]
  · cases hd
  · cases hm
    rw [hi, hsplit]
    exact deliverLoop_cutoff (hsplit ▸ p.unique) hfull

/-- **No readiness is swallowed.** In every run, whatever the poll answers: a
clear armed bit of an edge-triggered entry has been reported since it was last
set, a one-shot entry is disarmed only after a delivery since its registration,
and an entry cut off by `maxevents` keeps its armed bits. -/
theorem edge_readiness_never_swallowed (c : Config) {s : State} {log : List Obs}
    (h : (machine c).Run anyStep s log) :
    (∀ e ∈ s.interest.entries, e.edge = true → e.oneshot = false →
      ∀ d, d = ARM_IN ∨ d = ARM_OUT → has e.armed d = false →
        Since (setsArmed e.fd d) (reports e.fd d) log) ∧
    (∀ e ∈ s.interest.entries, e.oneshot = true →
      ∀ d, d = ARM_IN ∨ d = ARM_OUT → has e.armed d = false →
        Since (registers e.fd) (delivers e.fd) log) ∧
    (∀ t expired s' out w p rc before q after, s.phase t = .matching w p rc →
      step c s (.deliver t expired) = some (s', out) → p.slots = before ++ q :: after →
      (deliverLoop c.k w.maxevents before s.interest).2.length = w.maxevents →
      (s'.interest.findEntry q.fd).map Entry.armed = (s.interest.findEntry q.fd).map Entry.armed) := by
  have hacc := accounted_run h
  refine ⟨fun e he => ?_, fun e he => ?_, ?_⟩
  · exact (hacc e.fd e (Interest.findEntry_eq_some_iff.mpr ⟨he, rfl⟩)).edge
  · exact (hacc e.fd e (Interest.findEntry_eq_some_iff.mpr ⟨he, rfl⟩)).oneshot
  · intro t expired s' out w p rc before q after hph hs hsplit hfull
    rw [cutoff_keeps hph hs hsplit hfull]

/-- A wait that reports a readable edge-triggered descriptor, and the bit it
leaves clear. -/
theorem edge_readiness_after_delivery :
    ∃ s log, (machine ⟨plainHost, 3, 16⟩).Run anyStep s log ∧
      ∃ e ∈ s.interest.entries, e.fd = 5 ∧ has e.armed ARM_IN = false ∧
        Since (setsArmed 5 ARM_IN) (reports 5 ARM_IN) log := by
  have hstart : (machine ⟨plainHost, 3, 16⟩).Run anyStep State.init [] := .start
  obtain ⟨s, log, hrun, hp⟩ := hstart.extend (fun _ _ => true) (fun _ _ _ => trivial)
    [.ctl 3 .add 5 (some ⟨EPOLLIN ||| EPOLLET, 7⟩) true, .kick, .enter 0 1 true, .snap 0 true,
      .poll 0 (.ready 1 0 fun _ => 1) false, .deliver 0 false]
    (fun s _ => decide (∃ e ∈ s.interest.entries, e.fd = 5 ∧ e.edge = true ∧ e.oneshot = false ∧
      has e.armed ARM_IN = false))
    (by decide)
  obtain ⟨e, he, hfd, hedge, hone, hclear⟩ := of_decide_eq_true hp
  have hall := (edge_readiness_never_swallowed _ hrun).1 e he hedge hone ARM_IN (Or.inl rfl) hclear
  exact ⟨s, log, hrun, e, he, hfd, hclear, hfd ▸ hall⟩

end ApeShim.Epoll
