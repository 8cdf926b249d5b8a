import ApeShim.Inotify.Stream

/-!
What becomes of an event. A write that finds no room sets the overflow flag, and the next round
sends an overflow record for it; a write that is interrupted sets nothing, and the overflow
record of a round is not tried again once it was.
-/

namespace ApeShim.Inotify
open Flags Trace

def overflowRecord : Event := overflowCall.record

/-! ## What the writes answered -/

/-- The records given to `write` with its answers, newest first. -/
def fates (wr : Nat → Written) : List Event → List (Event × Written)
  | [] => []
  | e :: sent => (e, wr sent.length) :: fates wr sent

/-- An overflow record written whole. -/
def IsTold (f : Event × Written) : Prop := f.1 = overflowRecord ∧ f.2 = .took .ok

/-- An event that was not. -/
def IsLost (f : Event × Written) : Prop := f.1 ≠ overflowRecord ∧ f.2 ≠ .took .ok

/-- An event was lost, and the reader has not been told since. -/
def Owed (wr : Nat → Written) (sent : List Event) : Prop := Since IsTold IsLost (fates wr sent)

/-- The record of the `k`-th write. -/
def given (sent : List Event) (k : Nat) : Option Event := sent.reverse[k]?

/-- Every event given to `write` was written whole, or the flag is up, or an overflow record was
written whole after it, or the instance is dead. -/
def Inst.Admits (wr : Nat → Written) (g : Inst) : Prop :=
  ∀ k e, given g.sent k = some e → e ≠ overflowRecord →
    wr k = .took .ok ∨ g.overflow = true ∨ g.dead = true ∨
      ∃ m, k < m ∧ given g.sent m = some overflowRecord ∧ wr m = .took .ok

/-- The answers to one write for each of the calls. -/
def answers (wr : Nat → Written) (n : Nat) (calls : List Call) : List Written :=
  (List.range' n calls.length).map wr

theorem answers_cons (wr : Nat → Written) (n : Nat) (c : Call) (calls : List Call) :
    answers wr n (c :: calls) = wr n :: answers wr (n + 1) calls := by
  simp [answers, List.range'_succ]

section

variable {wr : Nat → Written}

theorem given_cons (e : Event) (sent : List Event) (k : Nat) :
    given (e :: sent) k = if k = sent.length then some e else given sent k := by
  unfold given
  rw [List.reverse_cons]
  rcases Nat.lt_trichotomy k sent.length with hlt | rfl | hgt
  · rw [List.getElem?_append_left (by simpa using hlt), if_neg (by omega)]
  · simp
  · rw [if_neg (by omega), List.getElem?_eq_none (by simp; omega),
      List.getElem?_eq_none (by simp; omega)]

theorem lt_of_given {sent : List Event} {k : Nat} {e : Event} (h : given sent k = some e) :
    k < sent.length := by
  have hlt := (List.getElem?_eq_some_iff.mp h).1
  simpa using hlt

/-- Owing, said of the writes by their numbers. -/
theorem owed_iff (sent : List Event) : Owed wr sent ↔
    ∃ k e, given sent k = some e ∧ e ≠ overflowRecord ∧ wr k ≠ .took .ok ∧
      ∀ m, k < m → given sent m = some overflowRecord → wr m ≠ .took .ok := by
  induction sent with
  | nil =>
    constructor
    · intro h
      cases h
    · rintro ⟨k, e, hk, _⟩
      cases hk
  | cons e sent ih =>
    have hcons : Owed wr (e :: sent) ↔ IsLost (e, wr sent.length) ∨
        (¬ IsTold (e, wr sent.length) ∧ Owed wr sent) := Iff.rfl
    rw [hcons, ih]
    constructor
    · rintro (⟨he, hlost⟩ | ⟨htold, k, e', hk, he', hlost, hnone⟩)
      · refine ⟨sent.length, e, by simp [given_cons], he, hlost, fun m hm hgiven => ?_⟩
        have hlt := lt_of_given hgiven
        rw [List.length_cons] at hlt
        omega
      · have hlt := lt_of_given hk
        refine ⟨k, e', ?_, he', hlost, fun m hm hgiven => ?_⟩
        · rw [given_cons, if_neg (by omega)]
          exact hk
        · rw [given_cons] at hgiven
          split_ifs at hgiven with hlast
          · cases hgiven
            rw [hlast]
            exact fun hok => htold ⟨rfl, hok⟩
          · exact hnone m hm hgiven
    · rintro ⟨k, e', hk, he', hlost, hnone⟩
      rw [given_cons] at hk
      split_ifs at hk with hlast
      · cases hk
        exact .inl ⟨he', hlast ▸ hlost⟩
      · have hlt := lt_of_given hk
        refine .inr ⟨?_, k, e', hk, he', hlost, fun m hm hgiven => ?_⟩
        · rintro ⟨htold, hok⟩
          refine hnone sent.length hlt ?_ hok
          rw [given_cons, if_pos rfl]
          exact congrArg some htold
        · have hmlt := lt_of_given hgiven
          refine hnone m hm ?_
          rw [given_cons, if_neg (by omega)]
          exact hgiven

theorem admits_iff {g : Inst} :
    g.Admits wr ↔ (Owed wr g.sent → g.overflow = true ∨ g.dead = true) := by
  rw [owed_iff]
  constructor
  · rintro h ⟨k, e, hk, he, hlost, hnone⟩
    rcases h k e hk he with hok | hflag | hdead | ⟨m, hm, hrecord, htold⟩
    · exact absurd hok hlost
    · exact .inl hflag
    · exact .inr hdead
    · exact absurd htold (hnone m hm hrecord)
  · intro h k e hk he
    by_contra hnone
    push Not at hnone
    obtain ⟨hlost, hflag, hdead, hnever⟩ := hnone
    rcases h ⟨k, e, hk, he, hlost, hnever⟩ with hup | hup
    · exact hflag hup
    · exact hdead hup

/-! ## Emitting -/

/-- With no write failing, every record is sent, and a full pipe raises the flag. -/
theorem emitEach_eq {g : Inst} {calls : List Call} (hlive : g.dead = false)
    (hnone : .failed ∉ answers wr g.sent.length calls) :
    g.emitEach wr calls = { g with
      sent := (calls.map Call.record).reverse ++ g.sent
      overflow := g.overflow || decide (.took .again ∈ answers wr g.sent.length calls) } := by
  induction calls generalizing g with
  | nil => simp [answers]
  | cons c calls ih =>
    rw [answers_cons, List.mem_cons, not_or] at hnone
    have hfirst : g.emit wr c.wd c.mask c.name = { g with
        sent := c.record :: g.sent
        overflow := g.overflow || decide (wr g.sent.length = .took .again) } := by
      rw [emit_of_live hlive, decide_eq_false (Ne.symm hnone.1), ← hlive]
      rfl
    have hstill : (g.emit wr c.wd c.mask c.name).dead = false := by
      rw [hfirst]
      exact hlive
    have hrest : .failed ∉ answers wr (g.emit wr c.wd c.mask c.name).sent.length calls := by
      rw [hfirst]
      exact hnone.2
    rw [emitEach_cons, ih hstill hrest, hfirst]
    simp only [List.length_cons, answers_cons, List.mem_cons, List.map_cons, List.reverse_cons,
      List.append_assoc, List.singleton_append, Bool.or_assoc, Bool.decide_or, eq_comm]

theorem emitEach_still {g : Inst} (calls : List Call) (hdead : g.dead = true) :
    g.emitEach wr calls = g := by
  induction calls with
  | nil => rfl
  | cons c calls ih => rw [emitEach_cons, emit_of_dead hdead, ih]

/-- A write that fails is the last. -/
theorem emitEach_dead {g : Inst} {calls : List Call} (hlive : g.dead = false)
    (hfailed : .failed ∈ answers wr g.sent.length calls) :
    (g.emitEach wr calls).dead = true := by
  induction calls generalizing g with
  | nil => cases hfailed
  | cons c calls ih =>
    rw [answers_cons, List.mem_cons] at hfailed
    rw [emitEach_cons]
    by_cases hfirst : wr g.sent.length = .failed
    · have hdead : (g.emit wr c.wd c.mask c.name).dead = true := by
        rw [emit_of_live hlive]
        exact decide_eq_true hfirst
      rw [emitEach_still _ hdead]
      exact hdead
    · have hemit := @emit_of_live wr g hlive c.wd c.mask c.name
      rw [decide_eq_false hfirst] at hemit
      refine ih (by rw [hemit]) ?_
      rw [hemit]
      exact hfailed.resolve_left (Ne.symm hfirst)

/-! ## Owing after a round -/

theorem fates_calls (calls : List Call) (sent : List Event) :
    fates wr ((calls.map Call.record).reverse ++ sent) =
      ((calls.map Call.record).zip (answers wr sent.length calls)).reverse ++ fates wr sent := by
  induction calls generalizing sent with
  | nil => rfl
  | cons c calls ih =>
    have hpush : ((c :: calls).map Call.record).reverse ++ sent =
        (calls.map Call.record).reverse ++ (c.record :: sent) := by simp
    rw [hpush, ih, answers_cons]
    simp [fates]

/-- None of these is an overflow record. -/
def Ordinary (calls : List Call) : Prop := ∀ c ∈ calls, c.mask ≠ inQOverflow

theorem Ordinary.record_ne {calls : List Call} (h : Ordinary calls) :
    ∀ e ∈ calls.map Call.record, e ≠ overflowRecord := by
  intro e he heq
  obtain ⟨c, hc, rfl⟩ := List.mem_map.mp he
  have hmask := congrArg Event.mask heq
  simp only [Call.record, overflowRecord, record_mask] at hmask
  exact h c hc hmask

/-- After events, something is owed if it was before, or if one of them was not written. -/
theorem owed_events {calls : List Call} (h : Ordinary calls) (sent : List Event) :
    Owed wr ((calls.map Call.record).reverse ++ sent) ↔
      (∃ w ∈ answers wr sent.length calls, w ≠ .took .ok) ∨ Owed wr sent := by
  have hne := h.record_ne
  have hlen : (calls.map Call.record).length = (answers wr sent.length calls).length := by
    simp [answers]
  unfold Owed
  rw [fates_calls, since_append_iff]
  · refine or_congr ?_ Iff.rfl
    constructor
    · rintro ⟨⟨e, w⟩, hmem, hlost⟩
      exact ⟨w, (List.of_mem_zip (List.mem_reverse.mp hmem)).2, hlost.2⟩
    · rintro ⟨w, hw, hlost⟩
      rw [← List.map_snd_zip (Nat.le_of_eq hlen.symm)] at hw
      obtain ⟨⟨e, w⟩, hmem, rfl⟩ := List.mem_map.mp hw
      exact ⟨(e, w), List.mem_reverse.mpr hmem, hne e (List.of_mem_zip hmem).1, hlost⟩
  · rintro ⟨e, w⟩ hmem ⟨htold, _⟩
    exact hne e (List.of_mem_zip (List.mem_reverse.mp hmem)).1 htold

/-- An overflow record settles what is owed if it is written. -/
theorem owed_told (sent : List Event) :
    Owed wr (overflowRecord :: sent) ↔ wr sent.length ≠ .took .ok ∧ Owed wr sent := by
  have hcons : Owed wr (overflowRecord :: sent) ↔
      IsLost (overflowRecord, wr sent.length) ∨
        (¬ IsTold (overflowRecord, wr sent.length) ∧ Owed wr sent) := Iff.rfl
  rw [hcons]
  simp [IsLost, IsTold]

end

/-! ## A round reports events only -/

theorem selfGone_ne {mask : Mask} {c : Mask × Name} (hc : c ∈ selfGone mask) :
    c.1 ≠ inQOverflow := by
  rw [mem_ite_singleton hc]
  decide

theorem watchCalls_ne {host : Host} {w : Watch} {c : Mask × Name} (hc : c ∈ watchCalls host w) :
    c.1 ≠ inQOverflow := by
  unfold watchCalls at hc
  split_ifs at hc
  · cases hc
  · unfold dirCalls at hc
    split at hc
    · rcases List.mem_append.mp hc with hc | hc
      · exact selfGone_ne hc
      · rw [mem_ite_singleton hc]
        decide
    · cases hc
    · exact (diff_changes hc).ne.2
  · unfold fileCalls at hc
    split at hc
    · rcases List.mem_append.mp hc with hc | hc
      · exact selfGone_ne hc
      · rw [List.mem_singleton.mp hc]
        decide
    · cases hc
    · exact (selfChanged_changes hc).ne.2

theorem roundCalls_ordinary (host : Host) (ws : List Watch) : Ordinary (roundCalls host ws) := by
  intro c hc
  obtain ⟨w, _, hc⟩ := List.mem_flatMap.mp hc
  obtain ⟨call, hcall, rfl⟩ := List.mem_map.mp hc
  exact watchCalls_ne hcall

/-! ## One operation -/

/-- No write of the operation is interrupted, unless the flag is up after it or the instance
dead: in a round, where the overflow record is written too, because another of its writes found
no room or no reader; in a removal, because the flag was up. -/
def Heard (wr : Nat → Written) (g : Inst) : Op → Prop
  | .pass host =>
      .took .intr ∈ answers wr g.sent.length (g.due host) →
        .took .again ∈ answers wr g.sent.length (g.due host) ∨
          .failed ∈ answers wr g.sent.length (g.due host)
  | .addWatch .. => True
  | .rmWatch wd =>
      g.watches.any (fun w => w.wd = wd && !w.dropped) = true →
        wr g.sent.length = .took .intr → g.overflow = true

section

variable {wr : Nat → Written} {g : Inst}

/-- With the flag up exactly if something is owed, a round leaves something owed exactly if one
of its writes was not done. -/
theorem owed_due (host : Host) (hflag : g.overflow = true ↔ Owed wr g.sent) :
    Owed wr (((g.due host).map Call.record).reverse ++ g.sent) ↔
      ∃ w ∈ answers wr g.sent.length (g.due host), w ≠ .took .ok := by
  have hround := roundCalls_ordinary host g.watches
  unfold Inst.due
  cases hup : g.overflow with
  | false =>
    have hnot : ¬ Owed wr g.sent := by
      rw [← hflag, hup]
      decide
    simp only [Bool.false_eq_true, if_false, List.nil_append, owed_events hround, hnot, or_false]
  | true =>
    have howed : Owed wr g.sent := hflag.mp hup
    have hpush : ((overflowCall :: roundCalls host g.watches).map Call.record).reverse ++ g.sent =
        ((roundCalls host g.watches).map Call.record).reverse ++ (overflowRecord :: g.sent) := by
      simp [overflowRecord]
    simp only [if_true, List.singleton_append, hpush, owed_events hround, owed_told, howed,
      and_true, answers_cons, List.exists_mem_cons_iff, List.length_cons]
    exact or_comm

/-- A round in which no write fails. -/
theorem pass_written {host : Host} (hlive : g.dead = false)
    (hnone : .failed ∉ answers wr g.sent.length (g.due host)) :
    (g.pass wr host).sent = ((g.due host).map Call.record).reverse ++ g.sent ∧
      (g.pass wr host).overflow =
        decide (.took .again ∈ answers wr g.sent.length (g.due host)) ∧
      (g.pass wr host).dead = false := by
  rw [pass_eq, @emitEach_eq wr { g with overflow := false } _ hlive hnone]
  exact ⟨rfl, by simp, hlive⟩

theorem pass_dead {host : Host} (hlive : g.dead = false)
    (hfailed : .failed ∈ answers wr g.sent.length (g.due host)) :
    (g.pass wr host).dead = true := by
  rw [pass_eq]
  exact @emitEach_dead wr { g with overflow := false } _ hlive hfailed

/-- After a round the flag is up exactly if something is owed, when the round was heard. -/
theorem pass_flag_iff {host : Host} (hlive : g.dead = false)
    (hflag : g.overflow = true ↔ Owed wr g.sent)
    (hnone : .failed ∉ answers wr g.sent.length (g.due host)) :
    ((g.pass wr host).overflow = true → Owed wr (g.pass wr host).sent) ∧
      ((Owed wr (g.pass wr host).sent → (g.pass wr host).overflow = true) ↔
        Heard wr g (.pass host)) := by
  obtain ⟨hsent, hover, _⟩ := pass_written hlive hnone
  rw [hsent, hover, owed_due host hflag, decide_eq_true_iff]
  constructor
  · intro hagain
    exact ⟨_, hagain, by simp⟩
  · simp only [Heard, hnone, or_false]
    constructor
    · intro h hintr
      exact h ⟨_, hintr, by simp⟩
    · rintro h ⟨w, hw, hne⟩
      cases w with
      | failed => exact absurd hw hnone
      | took r =>
        cases r with
        | ok => exact absurd rfl hne
        | again => exact hw
        | intr => exact h hw

theorem rmWatch_flag_iff {wd : Int} (hlive : g.dead = false)
    (hflag : g.overflow = true ↔ Owed wr g.sent)
    (hstill : (g.rmWatch wr wd).1.dead = false) :
    ((g.rmWatch wr wd).1.overflow = true → Owed wr (g.rmWatch wr wd).1.sent) ∧
      ((Owed wr (g.rmWatch wr wd).1.sent → (g.rmWatch wr wd).1.overflow = true) ↔
        Heard wr g (.rmWatch wd)) := by
  have hordinary : Ordinary [⟨wd, inIgnored, []⟩] := by
    intro c hc
    rw [List.mem_singleton.mp hc]
    change inIgnored ≠ inQOverflow
    decide
  have hone : answers wr g.sent.length [⟨wd, inIgnored, []⟩] = [wr g.sent.length] := rfl
  rw [rmWatch_eq] at hstill ⊢
  by_cases hhit : g.watches.any (fun w => w.wd = wd && !w.dropped) = true
  · rw [if_pos hhit] at hstill ⊢
    have hnone : .failed ∉ answers wr g.sent.length [⟨wd, inIgnored, []⟩] := by
      intro hfailed
      have hdead := emitEach_dead hlive hfailed
      rw [show (g.emitEach wr [⟨wd, inIgnored, []⟩]).dead = false from hstill] at hdead
      cases hdead
    have howed := @owed_events wr _ hordinary g.sent
    simp only [hone, List.mem_singleton, exists_eq_left] at howed hnone
    simp only [emitEach_eq hlive (hone ▸ List.mem_singleton.not.mpr hnone), howed, hone,
      List.mem_singleton, Bool.or_eq_true, decide_eq_true_eq, hflag, Heard, hhit, true_imp_iff]
    cases hout : wr g.sent.length with
    | failed => exact absurd hout.symm hnone
    | took r => cases r <;> simp
  · rw [if_neg hhit]
    refine ⟨hflag.mp, ?_⟩
    simp only [Heard, hhit, hflag]
    simp

theorem apply_flag_iff {a : Op} (hlive : g.dead = false)
    (hflag : g.overflow = true ↔ Owed wr g.sent) (hstill : (g.apply wr a).dead = false) :
    ((g.apply wr a).overflow = true → Owed wr (g.apply wr a).sent) ∧
      ((Owed wr (g.apply wr a).sent → (g.apply wr a).overflow = true) ↔ Heard wr g a) := by
  cases a with
  | pass host =>
    refine pass_flag_iff hlive hflag fun hfailed => ?_
    have hdead := pass_dead hlive hfailed
    rw [show (g.pass wr host).dead = false from hstill] at hdead
    cases hdead
  | addWatch ls res path mask st =>
    have hquiet : g.Quiet (g.addWatch wr ls res path mask st).1 :=
      addWatch_frame ls res path mask st
    simp only [Inst.apply, hquiet.sent, hquiet.overflow, hflag, Heard]
    simp
  | rmWatch wd => exact rmWatch_flag_iff hlive hflag hstill

/-- An operation that kills the instance was heard. -/
theorem heard_of_dead {a : Op} (hlive : g.dead = false) (hdead : (g.apply wr a).dead = true) :
    Heard wr g a := by
  cases a with
  | pass host =>
    intro _
    by_contra hnone
    push Not at hnone
    have hstill := (pass_written hlive hnone.2).2.2
    rw [show (g.pass wr host).dead = true from hdead] at hstill
    cases hstill
  | addWatch ls res path mask st => trivial
  | rmWatch wd =>
    intro hhit hintr
    rw [Inst.apply, rmWatch_eq, if_pos hhit] at hdead
    have hemit := @emit_of_live wr g hlive wd inIgnored []
    rw [hintr] at hemit
    rw [emitEach_cons, emitEach_nil, hemit] at hdead
    simp at hdead

theorem apply_admits_iff {a : Op} (hlive : g.dead = false)
    (hflag : g.overflow = true ↔ Owed wr g.sent) : (g.apply wr a).Admits wr ↔ Heard wr g a := by
  rw [admits_iff]
  cases hend : (g.apply wr a).dead with
  | true => simp [heard_of_dead hlive hend]
  | false =>
    rw [← (apply_flag_iff hlive hflag hend).2]
    simp

/-! ## Whole lives -/

/-- While every operation is heard, the flag of a live instance is up exactly if something is
owed. -/
theorem flag_of_life {rfd wfd : Int} {pipe : Nat} {log : List Int}
    (h : (life wr (.fresh rfd wfd pipe)).Run (Heard wr) g log) :
    g.dead = false → (g.overflow = true ↔ Owed wr g.sent) := by
  refine Machine.Run.invariant
    (P := fun g _ => g.dead = false → (g.overflow = true ↔ Owed wr g.sent)) ?_ ?_ h
  · intro _
    constructor
    · intro hup
      exact absurd hup (by simp [life, Inst.fresh])
    · intro howed
      cases howed
  · intro g log a g' out hg hheard hstep hstill
    obtain ⟨henabled, rfl, _⟩ := life_step hstep
    have hlive := Inst.enabled_live henabled
    obtain ⟨hup, hdown⟩ := apply_flag_iff hlive (hg hlive) hstill
    exact ⟨hup, hdown.mpr hheard⟩

/-- Through a life whose operations are all heard, every event is written whole, or the
overflow flag is up until an overflow record is, or the instance is dead; the first operation
that is not heard ends that. And in any life, a round that the instance survives gives every
event to `write`, and the pipe gets whole records. -/
theorem events_admitted_iff (wr : Nat → Written) (rfd wfd : Int) (pipe : Nat) :
    (∀ g log, (life wr (.fresh rfd wfd pipe)).Run (Heard wr) g log → g.Admits wr) ∧
    (∀ g log a, (life wr (.fresh rfd wfd pipe)).Run (Heard wr) g log → g.enabled a = true →
      ((g.apply wr a).Admits wr ↔ Heard wr g a)) ∧
    (∀ g log, (life wr (.fresh rfd wfd pipe)).Run anyStep g log →
      Framed (stream wr g.sent) ∧
      ∀ host, g.enabled (.pass host) = true → (g.pass wr host).dead = false →
        (g.pass wr host).sent = ((g.due host).map Call.record).reverse ++ g.sent) := by
  refine ⟨?_, ?_, ?_⟩
  · intro g log h
    rw [admits_iff]
    cases hdead : g.dead with
    | true => exact fun _ => .inr rfl
    | false => exact fun howed => .inl ((flag_of_life h hdead).mpr howed)
  · intro g log a h henabled
    have hlive := Inst.enabled_live henabled
    exact apply_admits_iff hlive (flag_of_life h hlive)
  · intro g log h
    refine ⟨life_framed h, fun host henabled hstill => ?_⟩
    have hlive := Inst.enabled_live henabled
    refine (pass_written hlive fun hfailed => ?_).1
    have hdead := pass_dead hlive hfailed
    rw [hstill] at hdead
    cases hdead

/-! ## An interrupted write -/

def aWatchedFolder : Stat := ⟨1, 0, 0, 0, 0, true⟩

/-- A folder in which a file has appeared. -/
def withNewFile : Host :=
  ⟨fun _ _ => .gone, fun _ => .entries [([97], some ⟨2, 0, 0, 0, 0, false⟩)]⟩

/-- The one write there is is interrupted, and nothing says so. -/
theorem interrupted_event_lost :
    ∃ g log, (life (fun _ => .took .intr) (.fresh 3 4 0)).Run anyStep g log ∧
      ¬ g.Admits fun _ => .took .intr := by
  have hstart : (life (fun _ => .took .intr) (.fresh 3 4 0)).Run anyStep (.fresh 3 4 0) [] := .start
  obtain ⟨g, log, hrun, h⟩ := hstart.extend (fun _ _ => true) (fun _ _ _ => trivial)
    [.addWatch (.entries []) ⟨true, true, true⟩ [100] inCreate aWatchedFolder, .pass withNewFile]
    (fun g _ => !g.overflow && !g.dead && decide (g.sent = [record 1 inCreate [97]]))
    (by decide)
  simp only [Bool.and_eq_true, Bool.not_eq_true', decide_eq_true_eq] at h
  obtain ⟨⟨hflag, hdead⟩, hsent⟩ := h
  refine ⟨g, log, hrun, fun hadmits => ?_⟩
  have hgiven : given g.sent 0 = some (record 1 inCreate [97]) := by
    rw [hsent]
    rfl
  rcases hadmits 0 _ hgiven (by decide) with hok | hup | hup | ⟨m, _, _, hok⟩
  · cases hok
  · rw [hflag] at hup
    cases hup
  · rw [hdead] at hup
    cases hup
  · cases hok

end

end ApeShim.Inotify
