import ApeShim.Lib.Window
import Mathlib.Data.List.Nodup
import Mathlib.Data.List.Perm.Basic
import Mathlib.Logic.Function.Basic

/-!
`__proc_worker` of `shim/proc.c`: which children a round waits on, and what becomes of the
references it takes. At most 64 handles fit in one wait, so with more children the worker looks
at another part of the list each round. Between two rounds `__proc_add` puts children in front
and children that ended leave the list.
-/

namespace ApeShim.Worker

inductive Status
  | alive | zombie | undead
  deriving DecidableEq, Repr

/-- What the worker uses of `__proc`, with children by number. -/
structure Tracker where
  list : List Nat
  undead : List Nat
  free : List Nat
  waiters : Nat → Nat
  status : Nat → Status

/-! ## Assembling a group -/

/-- The group, the samples behind it, the rest of the list and the waiters, as the loop leaves
them. -/
structure Group where
  objects : List Nat
  samples : List Nat
  rest : List Nat
  waiters : Nat → Nat

/-- The sampling loop, with room for as many handles. -/
def sample : Nat → List Nat → (Nat → Nat) → Group
  | 0, l, w => ⟨[], [], l, w⟩
  | _ + 1, [], w => ⟨[], [], [], w⟩
  | n + 1, e :: l, w =>
      if w e = 0 then
        let g := sample n l (Function.update w e (w e + 1))
        { g with objects := e :: g.objects, samples := e :: g.samples }
      else
        let g := sample (n + 1) l w
        { g with samples := e :: g.samples }

/-- The head of the worker's loop, up to the wait. -/
def assemble (t : Tracker) : Tracker × List Nat :=
  let g := sample 64 t.list t.waiters
  ({ t with list := g.rest ++ g.samples, waiters := g.waiters }, g.objects)

/-! ### The group is a window -/

/-- Children that some thread waits for are passed by. -/
def awaited (w : Nat → Nat) (p : Nat) : Bool := w p ≠ 0

theorem sample_eq (l : List Nat) : ∀ (n : Nat) (w : Nat → Nat), l.Nodup →
    (sample n l w).objects = (Window.draw (awaited w) n l).1 ∧
      (sample n l w).samples = (Window.draw (awaited w) n l).2.1 ∧
      (sample n l w).rest = (Window.draw (awaited w) n l).2.2 ∧
      ∀ q, (sample n l w).waiters q =
        if q ∈ (Window.draw (awaited w) n l).1 then w q + 1 else w q := by
  induction l with
  | nil =>
    intro n w _
    cases n <;> exact ⟨rfl, rfl, rfl, fun q => by simp [sample, Window.draw]⟩
  | cons e l ih =>
    intro n w hnodup
    obtain ⟨he, hl⟩ := List.nodup_cons.mp hnodup
    cases n with
    | zero => exact ⟨rfl, rfl, rfl, fun q => by simp [sample, Window.draw]⟩
    | succ n =>
      rw [sample, Window.draw]
      by_cases hw : w e = 0
      · -- counting `e` changes nothing for the rest of the list
        have hcongr : Window.draw (awaited (Function.update w e (w e + 1))) n l =
            Window.draw (awaited w) n l := Window.draw_congr n l fun a ha => by
          have hne : a ≠ e := fun h => he (h ▸ ha)
          rw [awaited, awaited, Function.update_of_ne hne]
        obtain ⟨hobj, hsam, hrest, hwait⟩ := ih n (Function.update w e (w e + 1)) hl
        rw [hcongr] at hobj hsam hrest hwait
        have hskip : awaited w e = false := by simp [awaited, hw]
        rw [if_pos hw, hskip]
        refine ⟨congrArg (e :: ·) hobj, congrArg (e :: ·) hsam, hrest, fun q => ?_⟩
        have heobj : e ∉ (Window.draw (awaited w) n l).1 := by
          rw [Window.draw_taken]
          intro hm
          have happend := Window.draw_append (awaited w) n l
          exact he (happend ▸ List.mem_append_left _ (List.mem_of_mem_filter hm))
        simp only [hwait q, Bool.false_eq_true, if_false, List.mem_cons]
        by_cases hq : q = e
        · subst hq
          rw [if_neg heobj, Function.update_self, if_pos (Or.inl rfl)]
        · rw [Function.update_of_ne hq]
          simp only [hq, false_or]
      · obtain ⟨hobj, hsam, hrest, hwait⟩ := ih (n + 1) w hl
        have hskip : awaited w e = true := by simp [awaited, hw]
        rw [if_neg hw, hskip]
        exact ⟨hobj, congrArg (e :: ·) hsam, hrest, hwait⟩

/-- **A group is the first 64 children nobody waits for**; each is now waited for, and the list
is turned past them. -/
theorem assemble_spec (t : Tracker) (h : t.list.Nodup) :
    (assemble t).2 = (t.list.filter fun p => t.waiters p = 0).take 64 ∧
      (∃ k, (assemble t).1.list = t.list.rotate k) ∧
      ∀ q, (assemble t).1.waiters q = if q ∈ (assemble t).2 then t.waiters q + 1 else t.waiters q := by
  obtain ⟨hobj, hsam, hrest, hwait⟩ := sample_eq t.list 64 t.waiters h
  obtain ⟨hfirst, hturn⟩ := Window.draw_spec (awaited t.waiters) 64 t.list
  have hgroup : (assemble t).2 = (Window.draw (awaited t.waiters) 64 t.list).1 := hobj
  refine ⟨?_, ⟨(Window.draw (awaited t.waiters) 64 t.list).2.1.length, ?_⟩, fun q => ?_⟩
  · rw [hgroup, hfirst]
    congr 2
    funext p
    simp [awaited]
  · rw [← hturn, Window.turn, ← hrest, ← hsam]
    rfl
  · rw [hgroup]
    exact hwait q

/-! ## After the wait -/

def kNtWaitTimeout : UInt32 := 258
def kNtWaitAbandoned : UInt32 := 128

/-- `__proc_free` -/
def Tracker.procFree (t : Tracker) (p : Nat) : Tracker :=
  { t with undead := t.undead.erase p, free := p :: t.free }

/-- `--pr->waiters` -/
def Tracker.unwait (t : Tracker) (p : Nat) : Tracker :=
  { t with waiters := Function.update t.waiters p (t.waiters p - 1) }

/-- Give up a reference, and the object with the last one if it is undead. -/
def Tracker.release (t : Tracker) (p : Nat) : Tracker :=
  if (t.unwait p).waiters p = 0 ∧ t.status p = .undead then (t.unwait p).procFree p
  else t.unwait p

/-- The loop that releases every object but number `i`, from number `j` on. -/
def releaseOthers (i : Nat) : Nat → List Nat → Tracker → Tracker
  | _, [], t => t
  | j, p :: ps, t => releaseOthers i (j + 1) ps (if j = i then t else t.release p)

/-- From the result of `WaitForMultipleObjects` to the end of the round: the tracker, and the
child that `__proc_harvest` is called for. `none` is `_Exit(157)`. The number behind the group's
own is `onbirth`. -/
def finish (t : Tracker) (objects : List Nat) (i : UInt32) : Option (Tracker × Option Nat) :=
  if i = 0xFFFFFFFF then none
  else
    let i := if i &&& kNtWaitAbandoned ≠ 0 then i &&& ~~~kNtWaitAbandoned else i
    let t := releaseOthers i.toNat 0 objects t
    if i = kNtWaitTimeout then some (t, none)
    else
      match objects[i.toNat]? with
      | none => some (t, none)
      | some p =>
        match t.status p with
        | .alive => some (t.unwait p, some p)
        | .zombie => some (t.unwait p, none)
        | .undead => some (t.release p, none)

/-! ## Each reference is given up once -/

section Release

variable {t : Tracker} {p q : Nat}

theorem release_status : (t.release p).status = t.status := by
  rw [Tracker.release]
  split <;> rfl

theorem release_waiters : (t.release p).waiters = Function.update t.waiters p (t.waiters p - 1) := by
  rw [Tracker.release]
  split <;> rfl

/-- The object goes to the free list with its last reference. -/
theorem release_free (hp : 0 < t.waiters p) : (t.release p).free =
    if t.waiters p = 1 ∧ t.status p = .undead then p :: t.free else t.free := by
  have hone : (t.unwait p).waiters p = 0 ↔ t.waiters p = 1 := by
    simp only [Tracker.unwait, Function.update_self]
    omega
  rw [Tracker.release]
  simp only [hone]
  split <;> rfl

/-- Undead, and held once. -/
def Tracker.last (t : Tracker) (p : Nat) : Bool := t.waiters p = 1 && t.status p = .undead

/-- What has been given up: one reference to each of these objects. -/
structure Released (t t' : Tracker) (ps : List Nat) : Prop where
  waiters : ∀ q, t'.waiters q = if q ∈ ps then t.waiters q - 1 else t.waiters q
  status : t'.status = t.status
  free : t'.free.Perm (ps.filter t.last ++ t.free)

theorem Released.refl (t : Tracker) : Released t t [] :=
  ⟨fun _ => by simp, rfl, by simp⟩

theorem Released.one (hp : 0 < t.waiters p) : Released t (t.release p) [p] := by
  refine ⟨fun q => ?_, release_status, ?_⟩
  · rw [release_waiters, Function.update_apply]
    simp only [List.mem_singleton]
    split
    · rename_i hq
      rw [hq]
    · rfl
  · rw [release_free hp]
    by_cases hl : t.waiters p = 1 ∧ t.status p = .undead
    · rw [if_pos hl, List.filter_cons_of_pos (by simp [Tracker.last, hl])]
      exact List.Perm.refl _
    · rw [if_neg hl, List.filter_cons_of_neg (by simpa [Tracker.last] using hl)]
      exact List.Perm.refl _

/-- Other objects after those. -/
theorem Released.trans {t₁ t₂ : Tracker} {ps qs : List Nat} (h₁ : Released t t₁ ps)
    (h₂ : Released t₁ t₂ qs) (hdis : ∀ q ∈ qs, q ∉ ps) : Released t t₂ (ps ++ qs) := by
  have hlast : qs.filter t₁.last = qs.filter t.last := List.filter_congr fun q hq => by
    rw [Tracker.last, Tracker.last, h₁.status, h₁.waiters q, if_neg (hdis q hq)]
  refine ⟨fun q => ?_, h₂.status.trans h₁.status, ?_⟩
  · rw [h₂.waiters q, h₁.waiters q]
    by_cases hq : q ∈ qs
    · rw [if_pos hq, if_neg (hdis q hq), if_pos (List.mem_append_right ps hq)]
    · simp only [hq, if_false, List.mem_append, or_false]
  · have hfree := h₂.free.trans (h₁.free.append_left _)
    rw [hlast, ← List.append_assoc] at hfree
    rw [List.filter_append]
    exact hfree.trans (List.perm_append_comm.append_right _)

theorem Released.perm {t' : Tracker} {ps qs : List Nat} (h : Released t t' ps) (hperm : ps.Perm qs) :
    Released t t' qs := by
  refine ⟨fun q => ?_, h.status, h.free.trans ((hperm.filter _).append_right _)⟩
  rw [h.waiters q]
  simp only [hperm.mem_iff]

theorem releaseOthers_spec (i : Nat) (ps : List Nat) : ∀ (j : Nat) {t : Tracker}, ps.Nodup →
    (∀ p ∈ ps, 0 < t.waiters p) →
    Released t (releaseOthers i j ps t) (if j ≤ i then ps.eraseIdx (i - j) else ps) := by
  induction ps with
  | nil =>
    intro j t _ _
    simp only [List.eraseIdx_nil, ite_self]
    exact Released.refl t
  | cons p ps ih =>
    intro j t hnodup hheld
    obtain ⟨hp, hps⟩ := List.nodup_cons.mp hnodup
    obtain ⟨hone, hrest⟩ := List.forall_mem_cons.mp hheld
    rw [releaseOthers]
    by_cases hj : j = i
    · -- the object that was signaled is left
      subst hj
      have hnext := ih (j + 1) hps hrest
      rw [if_neg (by omega)] at hnext
      rw [if_pos rfl, if_pos le_rfl, Nat.sub_self, List.eraseIdx_cons_zero]
      exact hnext
    · have hheld' : ∀ q ∈ ps, 0 < (t.release p).waiters q := fun q hq => by
        have hne : q ≠ p := fun he => hp (he ▸ hq)
        rw [release_waiters, Function.update_of_ne hne]
        exact hrest q hq
      have hnext := ih (j + 1) hps hheld'
      rw [if_neg hj]
      have hsub : ∀ q ∈ (if j + 1 ≤ i then ps.eraseIdx (i - (j + 1)) else ps), q ∉ [p] := by
        intro q hq
        have hmem : q ∈ ps := by
          split at hq
          · exact List.mem_of_mem_eraseIdx hq
          · exact hq
        rw [List.mem_singleton]
        exact fun he => hp (he ▸ hmem)
      have hall := (Released.one hone).trans hnext hsub
      by_cases hle : j ≤ i
      · rw [if_pos hle]
        rw [if_pos (by omega)] at hall
        rw [show i - j = i - (j + 1) + 1 by omega, List.eraseIdx_cons_succ]
        exact hall
      · rw [if_neg hle]
        rw [if_neg (by omega)] at hall
        exact hall

/-- An object that is not undead is just held once less. -/
theorem unwait_eq_release (h : t.status p ≠ .undead) : t.unwait p = t.release p := by
  rw [Tracker.release, if_neg fun hu => h hu.2]

end Release

/-- What `WaitForMultipleObjects` can answer for a group: a handle that is signaled or abandoned,
`onbirth` among them while the group is not full, or that time is up for a full group. -/
def Answers (objects : List Nat) (i : UInt32) : Prop :=
  (i = kNtWaitTimeout ∧ objects.length = 64) ∨
    ∃ k : Nat, k < min 64 (objects.length + 1) ∧ (i = .ofNat k ∨ i = .ofNat (128 + k))

/-- A handle's number can be read off the answer. -/
def ReadsOff (k : Nat) (i : UInt32) : Prop :=
  i ≠ 0xFFFFFFFF ∧
    (if i &&& kNtWaitAbandoned ≠ 0 then i &&& ~~~kNtWaitAbandoned else i) = .ofNat k ∧
    UInt32.ofNat k ≠ kNtWaitTimeout ∧ (UInt32.ofNat k).toNat = k

instance (k : Nat) (i : UInt32) : Decidable (ReadsOff k i) := inferInstanceAs (Decidable (_ ∧ _))

theorem readsOff_signaled : ∀ k < 64, ReadsOff k (.ofNat k) := by
  decide

theorem readsOff_abandoned : ∀ k < 64, ReadsOff k (.ofNat (128 + k)) := by
  decide

/-- The number of a handle, whether it is signaled or abandoned. -/
theorem handle_number {k : Nat} (hk : k < 64) {i : UInt32}
    (hi : i = .ofNat k ∨ i = .ofNat (128 + k)) : ReadsOff k i := by
  rcases hi with rfl | rfl
  · exact readsOff_signaled k hk
  · exact readsOff_abandoned k hk

/-- **A round gives back what it took**: whatever the wait answers, each object of the group is
held once less, the undead ones that nobody else holds go to the free list, once each, and
`__proc_harvest` is called for the child that was signaled if it is alive. -/
theorem round_gives_back (t : Tracker) (objects : List Nat) (i : UInt32) (hnodup : objects.Nodup)
    (hheld : ∀ p ∈ objects, 0 < t.waiters p) (hi : Answers objects i) :
    ∃ t' child, finish t objects i = some (t', child) ∧ Released t t' objects ∧
      ∀ p, child = some p ↔ t.status p = .alive ∧
        ∃ k : Nat, k < 64 ∧ objects[k]? = some p ∧ (i = .ofNat k ∨ i = .ofNat (128 + k)) := by
  rcases hi with ⟨rfl, hfull⟩ | ⟨k, hk, hik⟩
  · -- time is up, which is no handle's number
    have hall := releaseOthers_spec 258 objects 0 hnodup hheld
    rw [if_pos (Nat.zero_le _), List.eraseIdx_of_length_le (by omega)] at hall
    refine ⟨releaseOthers 258 0 objects t, none, rfl, hall, fun p => ?_⟩
    refine iff_of_false (by simp) ?_
    rintro ⟨-, k, hk, -, hik⟩
    rcases hik with hik | hik
    · exact (handle_number hk (.inl rfl)).2.2.1 hik.symm
    · have hmask := (handle_number hk (.inr rfl)).2
      rw [← hik] at hmask
      exact hmask.2.1 hmask.1.symm
  · have hk64 : k < 64 := by omega
    obtain ⟨hexit, hmask, htime, hnum⟩ := handle_number hk64 hik
    have hothers := releaseOthers_spec k objects 0 hnodup hheld
    rw [if_pos (Nat.zero_le _), Nat.sub_zero] at hothers
    -- no other number fits the answer
    have hunique : ∀ k', k' < 64 → (i = .ofNat k' ∨ i = .ofNat (128 + k')) → k' = k := by
      intro k' hk' hik'
      obtain ⟨-, hmask', -, hnum'⟩ := handle_number hk' hik'
      rw [← hnum', ← hnum, ← hmask', ← hmask]
    have hchild : ∀ (child : Option Nat) (p : Nat),
        (child = some p ↔ t.status p = .alive ∧ objects[k]? = some p) →
        (child = some p ↔ t.status p = .alive ∧
          ∃ k : Nat, k < 64 ∧ objects[k]? = some p ∧ (i = .ofNat k ∨ i = .ofNat (128 + k))) := by
      intro child p h
      rw [h]
      refine and_congr_right fun _ => ⟨fun hp => ⟨k, hk64, hp, hik⟩, ?_⟩
      rintro ⟨k', hk', hp, hik'⟩
      rw [← hunique k' hk' hik']
      exact hp
    rw [finish, if_neg hexit]
    simp only [hmask, hnum, htime, if_false]
    cases hobj : objects[k]? with
    | none =>
      -- the birth of a child
      rw [List.eraseIdx_of_length_le (List.getElem?_eq_none_iff.mp hobj)] at hothers
      refine ⟨_, none, rfl, hothers, fun p => hchild none p ?_⟩
      rw [hobj]
      simp
    | some p =>
      obtain ⟨hlt, hget⟩ := List.getElem?_eq_some_iff.mp hobj
      have hperm := List.getElem_cons_eraseIdx_perm hlt
      rw [hget] at hperm
      have hp : p ∉ objects.eraseIdx k := (List.nodup_cons.mp (hperm.nodup_iff.mpr hnodup)).1
      have hstatus : (releaseOthers k 0 objects t).status p = t.status p := by
        rw [hothers.status]
      have hstill : 0 < (releaseOthers k 0 objects t).waiters p := by
        rw [hothers.waiters p, if_neg hp]
        exact hheld p (hget ▸ List.getElem_mem hlt)
      have hall : Released t ((releaseOthers k 0 objects t).release p) objects := by
        refine (hothers.trans (Released.one hstill) ?_).perm ?_
        · intro q hq
          rw [List.mem_singleton.mp hq]
          exact hp
        · exact List.perm_append_comm.trans hperm
      have hquiet : t.status p ≠ .alive → ∀ q, none = some q ↔ t.status q = .alive ∧
          ∃ k : Nat, k < 64 ∧ objects[k]? = some q ∧ (i = .ofNat k ∨ i = .ofNat (128 + k)) := by
        intro hdead q
        refine hchild none q (iff_of_false (by simp) ?_)
        rintro ⟨hq, hpq⟩
        rw [hobj] at hpq
        rw [← Option.some.inj hpq] at hq
        exact hdead hq
      simp only
      cases hs : t.status p with
      | alive =>
        rw [hs] at hstatus
        simp only [hstatus]
        rw [unwait_eq_release (by rw [hstatus]; simp)]
        refine ⟨_, some p, rfl, hall, fun q => hchild _ q ?_⟩
        rw [hobj]
        refine ⟨fun hq => ⟨?_, hq⟩, fun hq => hq.2⟩
        rw [← Option.some.inj hq, hs]
      | zombie =>
        rw [hs] at hstatus
        simp only [hstatus]
        rw [unwait_eq_release (by rw [hstatus]; simp)]
        exact ⟨_, none, rfl, hall, hquiet (by rw [hs]; simp)⟩
      | undead =>
        rw [hs] at hstatus
        simp only [hstatus]
        exact ⟨_, none, rfl, hall, hquiet (by rw [hs]; simp)⟩

/-- Child 5 ended while child 3 had been reaped by its last other waiter. -/
theorem round_gives_back_two :
    ∃ t' child, finish ⟨[5], [3], [], fun _ => 1, fun p => if p = 3 then .undead else .alive⟩
        [3, 5] 1 = some (t', child) ∧
      Released ⟨[5], [3], [], fun _ => 1, fun p => if p = 3 then .undead else .alive⟩ t' [3, 5] ∧
      ∀ p, child = some p ↔ (if p = 3 then Status.undead else .alive) = .alive ∧
        ∃ k : Nat, k < 64 ∧ [3, 5][k]? = some p ∧ ((1 : UInt32) = .ofNat k ∨
          (1 : UInt32) = .ofNat (128 + k)) :=
  round_gives_back _ [3, 5] 1 (by decide) (fun _ _ => Nat.one_pos)
    (Or.inr ⟨1, by decide, Or.inl rfl⟩)

/-! ## Over all rounds -/

/-- What happens to the list: a child is added, a child leaves, or a round assembles its group
with these waiters. -/
inductive Event
  | add (p : Nat)
  | leave (p : Nat)
  | round (waiters : Nat → Nat)

/-- The list after an event. -/
def after (l : List Nat) : Event → List Nat
  | .add p => p :: l
  | .leave p => l.erase p
  | .round w => (sample 64 l w).rest ++ (sample 64 l w).samples

/-- The groups of the rounds, oldest first. -/
def groups : List Nat → List Event → List (List Nat)
  | _, [] => []
  | l, .round w :: es => (sample 64 l w).objects :: groups (after l (.round w)) es
  | l, .add p :: es => groups (after l (.add p)) es
  | l, .leave p :: es => groups (after l (.leave p)) es

/-- What `__proc_add` puts on the list is not on it. -/
def Fresh : List Nat → List Event → Prop
  | _, [] => True
  | l, .add p :: es => p ∉ l ∧ Fresh (after l (.add p)) es
  | l, .leave p :: es => Fresh (after l (.leave p)) es
  | l, .round w :: es => Fresh (after l (.round w)) es

def Event.window : Event → Window.Event Nat
  | .add p => .birth p
  | .leave p => .leave p
  | .round w => .draw (awaited w)

theorem after_round {l : List Nat} (h : l.Nodup) (w : Nat → Nat) :
    after l (.round w) = Window.turn (awaited w) 64 l := by
  obtain ⟨-, hsam, hrest, -⟩ := sample_eq l 64 w h
  rw [after, Window.turn, hsam, hrest]

theorem groups_eq (es : List Event) : ∀ {l : List Nat}, l.Nodup → Fresh l es →
    groups l es = Window.drawn 64 l (es.map Event.window) := by
  induction es with
  | nil =>
    intro l _ _
    rfl
  | cons e es ih =>
    intro l hnodup hfresh
    cases e with
    | add p => exact ih (List.nodup_cons.mpr ⟨hfresh.1, hnodup⟩) hfresh.2
    | leave p => exact ih (hnodup.erase p) hfresh
    | round w =>
      have hturn := after_round hnodup w
      have hnodup' : (after l (.round w)).Nodup := by
        rw [hturn, (Window.draw_spec (awaited w) 64 l).2]
        exact List.nodup_rotate.mpr hnodup
      have hrest := ih hnodup' hfresh
      rw [groups, List.map_cons, Event.window, Window.drawn, hrest, hturn,
        (sample_eq l 64 w hnodup).1]
      rfl

def adds : List Event → Nat
  | [] => 0
  | .add _ :: es => adds es + 1
  | .leave _ :: es | .round _ :: es => adds es

def rounds : List Event → Nat
  | [] => 0
  | .round _ :: es => rounds es + 1
  | .leave _ :: es | .add _ :: es => rounds es

theorem counts_window (es : List Event) :
    Window.births (es.map Event.window) = adds es ∧ Window.draws (es.map Event.window) = rounds es := by
  induction es with
  | nil => exact ⟨rfl, rfl⟩
  | cons e es ih =>
    cases e with
    | add p => exact ⟨congrArg (· + 1) ih.1, ih.2⟩
    | leave p => exact ih
    | round w => exact ⟨ih.1, congrArg (· + 1) ih.2⟩

/-- **Every child is waited on in time**: a child that is on the list, does not leave it and is
not waited for by others is in some round's group as soon as the rounds, 64 children each,
outnumber the children ahead of it and those that were added. -/
theorem every_child_is_watched (l : List Nat) (es : List Event) (p : Nat) (hnodup : l.Nodup)
    (hfresh : Fresh l es) (hp : p ∈ l) (hstays : .leave p ∉ es)
    (halone : ∀ w, .round w ∈ es → w p = 0)
    (hcount : l.idxOf p + adds es < 64 * rounds es) :
    ∃ group ∈ groups l es, p ∈ group := by
  rw [groups_eq es hnodup hfresh]
  obtain ⟨hadds, hrounds⟩ := counts_window es
  refine Window.drawn_of_stays (es.map Event.window) hp ?_ (by rw [hadds, hrounds]; exact hcount)
  intro e he
  obtain ⟨a, ha, rfl⟩ := List.mem_map.mp he
  cases a with
  | add q => exact ⟨by simp [Event.window], by simp [Event.window]⟩
  | leave q =>
    refine ⟨?_, by simp [Event.window]⟩
    rintro hq
    obtain rfl := Window.Event.leave.inj hq
    exact hstays ha
  | round w =>
    refine ⟨by simp [Event.window], ?_⟩
    rintro skip hw
    obtain rfl := Window.Event.draw.inj hw
    simp [awaited, halone w ha]

/-- The last of 66 children, with one more added after the first round. -/
theorem every_child_is_watched_last :
    ∃ group ∈ groups (List.range 66) [.round fun _ => 0, .add 66, .round fun _ => 0],
      65 ∈ group := by
  refine every_child_is_watched _ _ 65 List.nodup_range ?_ (by simp) (by simp) ?_ (by decide)
  · exact ⟨by decide, trivial⟩
  · intro w hw
    have hzero : w = fun _ => 0 := by simpa using hw
    rw [hzero]

end ApeShim.Worker
