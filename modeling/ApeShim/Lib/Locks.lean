import Mathlib.Algebra.BigOperators.Group.Finset.Basic
import Mathlib.Algebra.Order.BigOperators.Group.Finset
import Mathlib.Algebra.Order.Ring.Nat
import Mathlib.Data.List.Nodup
import Mathlib.Logic.Function.Basic
import Mathlib.Logic.Relation

/-!
Threads that take and give back locks, with signal handlers that run inside system calls. A program
is what the code does with its locks, with every other decision left open; a lock is handed to one
thread at a time, and to take one that is held, by another thread or by the same, is to wait. When
every program takes its locks in the order of a rank, no set of threads can get stuck.
-/

namespace Locks

/-- What a piece of code does with locks of type `L`. -/
inductive Prog (L : Type*)
  | skip
  | lock (l : L)
  | unlock (l : L)
  /-- a system call, during which handlers may run -/
  | call
  | seq (p q : Prog L)
  | either (p q : Prog L)
  /-- any number of times -/
  | many (p : Prog L)

namespace Prog

variable {L : Type*}

def block : List (Prog L) → Prog L
  | [] => skip
  | p :: ps => seq p (block ps)

def oneOf : List (Prog L) → Prog L
  | [] => skip
  | [p] => p
  | p :: ps => either p (oneOf ps)

def maybe (p : Prog L) : Prog L := either p skip

/-- With the lock held. -/
def within (l : L) (p : Prog L) : Prog L := block [lock l, p, unlock l]

/-- `lock` and `unlock` around code that only computes. -/
def touch (l : L) : Prog L := within l skip

def size : Prog L → Nat
  | skip | lock _ | unlock _ | call => 1
  | seq p q | either p q => p.size + q.size + 1
  | many p => p.size + 1

theorem size_pos (p : Prog L) : 0 < p.size := by
  cases p <;> simp [size]

end Prog

/-! ## Running -/

variable {T L : Type*} [DecidableEq T]

/-- What every thread has still to run, and who holds each lock. -/
structure System (T L : Type*) where
  threads : T → List (Prog L)
  owner : L → Option T

/-- One thread goes on with `k`; `owner` may have changed for it. -/
def System.put (s : System T L) (t : T) (k : List (Prog L)) (owner : L → Option T) : System T L :=
  ⟨Function.update s.threads t k, owner⟩

@[simp] theorem System.put_self (s : System T L) (t : T) (k : List (Prog L)) (owner : L → Option T) :
    (s.put t k owner).threads t = k := Function.update_self ..

theorem System.put_other (s : System T L) {t u : T} (h : u ≠ t) (k : List (Prog L))
    (owner : L → Option T) : (s.put t k owner).threads u = s.threads u := Function.update_of_ne h ..

@[simp] theorem System.put_owner (s : System T L) (t : T) (k : List (Prog L))
    (owner : L → Option T) : (s.put t k owner).owner = owner := rfl

/-- A step of one thread that needs no lock. In a system call the handler may run, as often as it
likes, before the call returns. -/
inductive Inner (handler : Prog L) : List (Prog L) → List (Prog L) → Prop
  | skip {k : List (Prog L)} : Inner handler (.skip :: k) k
  | seq {p q : Prog L} {k : List (Prog L)} : Inner handler (.seq p q :: k) (p :: q :: k)
  | left {p q : Prog L} {k : List (Prog L)} : Inner handler (.either p q :: k) (p :: k)
  | right {p q : Prog L} {k : List (Prog L)} : Inner handler (.either p q :: k) (q :: k)
  | stop {p : Prog L} {k : List (Prog L)} : Inner handler (.many p :: k) k
  | again {p : Prog L} {k : List (Prog L)} : Inner handler (.many p :: k) (p :: .many p :: k)
  | ret {k : List (Prog L)} : Inner handler (.call :: k) k
  | signal {k : List (Prog L)} : Inner handler (.call :: k) (handler :: .call :: k)

variable [DecidableEq L]

inductive Step (handler : Prog L) : System T L → System T L → Prop
  | inner {s : System T L} {t : T} {k : List (Prog L)} : Inner handler (s.threads t) k →
      Step handler s (s.put t k s.owner)
  | acquire {s : System T L} {t : T} {l : L} {k : List (Prog L)} :
      s.threads t = .lock l :: k → s.owner l = none →
      Step handler s (s.put t k (Function.update s.owner l (some t)))
  | release {s : System T L} {t : T} {l : L} {k : List (Prog L)} :
      s.threads t = .unlock l :: k → s.owner l = some t →
      Step handler s (s.put t k (Function.update s.owner l none))

abbrev Steps (handler : Prog L) : System T L → System T L → Prop :=
  Relation.ReflTransGen (Step handler)

/-- Every thread has ended and every lock is free. -/
def System.Over (s : System T L) : Prop := (∀ t, s.threads t = []) ∧ ∀ l, s.owner l = none

/-! ## The order of locks -/

section
variable (rank : L → Nat) (low : Nat)

/-- The locks held after a program that starts with `held`, if it takes each lock above all that it
holds, gives back only what it holds, and makes system calls only with locks below `low`. -/
def check : Prog L → List L → Option (List L)
  | .skip, held => some held
  | .lock l, held => if ∀ x ∈ held, rank x < rank l then some (l :: held) else none
  | .unlock l, held => if l ∈ held then some (held.erase l) else none
  | .call, held => if ∀ x ∈ held, rank x < low then some held else none
  | .seq p q, held => (check p held).bind (check q)
  | .either p q, held => if check p held = check q held then check p held else none
  | .many p, held => if check p held = some held then some held else none

def checkAll : List (Prog L) → List L → Option (List L)
  | [], held => some held
  | p :: k, held => (check rank low p held).bind (checkAll k)

/-- A program that gives back what it takes, and takes nothing of a rank under `r`. -/
def Level (r : Nat) (p : Prog L) : Prop :=
  ∀ held : List L, (∀ x ∈ held, rank x < r) → check rank low p held = some held

end

variable {rank : L → Nat} {low : Nat} {r r' : Nat} {p q : Prog L} {l : L} {held : List L}

theorem Level.mono (h : Level rank low r p) (hr : r' ≤ r) : Level rank low r' p :=
  fun held hheld => h held fun x hx => (hheld x hx).trans_le hr

theorem level_skip : Level rank low r .skip := fun _ _ => rfl

theorem level_call (hr : r ≤ low) : Level rank low r .call := fun _ hheld =>
  if_pos fun x hx => (hheld x hx).trans_le hr

theorem Level.seq (hp : Level rank low r p) (hq : Level rank low r q) :
    Level rank low r (.seq p q) := fun held hheld => by
  rw [check, hp held hheld, Option.bind_some, hq held hheld]

theorem Level.either (hp : Level rank low r p) (hq : Level rank low r q) :
    Level rank low r (.either p q) := fun held hheld => by
  rw [check, hp held hheld, hq held hheld, if_pos rfl]

theorem Level.many (hp : Level rank low r p) : Level rank low r (.many p) := fun held hheld => by
  rw [check, hp held hheld, if_pos rfl]

theorem Level.maybe (hp : Level rank low r p) : Level rank low r p.maybe := hp.either level_skip

theorem level_block {ps : List (Prog L)} (h : ps.Forall (Level rank low r)) :
    Level rank low r (.block ps) := by
  rw [List.forall_iff_forall_mem] at h
  induction ps with
  | nil => exact level_skip
  | cons p ps ih =>
      rw [List.forall_mem_cons] at h
      exact h.1.seq (ih h.2)

theorem level_oneOf {ps : List (Prog L)} (h : ps.Forall (Level rank low r)) :
    Level rank low r (.oneOf ps) := by
  rw [List.forall_iff_forall_mem] at h
  induction ps with
  | nil => exact level_skip
  | cons p ps ih =>
      rw [List.forall_mem_cons] at h
      cases ps with
      | nil => exact h.1
      | cons q ps => exact h.1.either (ih h.2)

/-- Under a lock, the code takes only what is above it. -/
theorem Level.within (hp : Level rank low (rank l + 1) p) (hr : r ≤ rank l) :
    Level rank low r (.within l p) := fun held hheld => by
  have hlock : check rank low (.lock l) held = some (l :: held) :=
    if_pos fun x hx => (hheld x hx).trans_le hr
  have hbody : check rank low p (l :: held) = some (l :: held) := by
    refine hp _ ?_
    rw [List.forall_mem_cons]
    exact ⟨Nat.lt_succ_self _, fun x hx => ((hheld x hx).trans_le hr).trans (Nat.lt_succ_self _)⟩
  have hunlock : check rank low (.unlock l) (l :: held) = some held := by
    rw [check, if_pos List.mem_cons_self, List.erase_cons_head]
  rw [Prog.within, Prog.block, Prog.block, Prog.block, Prog.block, check, hlock, Option.bind_some,
    check, hbody, Option.bind_some, check, hunlock]
  rfl

theorem level_touch (hr : r ≤ rank l) : Level rank low r (.touch l) := level_skip.within hr

theorem checkAll_level {k : List (Prog L)} (h : ∀ p ∈ k, Level rank low 0 p) :
    checkAll rank low k [] = some [] := by
  induction k with
  | nil => rfl
  | cons p k ih =>
      rw [List.forall_mem_cons] at h
      rw [checkAll, h.1 [] fun x hx => (List.not_mem_nil hx).elim, Option.bind_some]
      exact ih h.2

/-! ## What holds in every run -/

variable {handler : Prog L} {s s' : System T L} {t t' : T} {k k' : List (Prog L)}

/-- The locks of a thread, with which the rest of its programs ends without any. -/
structure Holds (rank : L → Nat) (low : Nat) (s : System T L) (t : T) (held : List L) : Prop where
  rest : checkAll rank low (s.threads t) held = some []
  nodup : held.Nodup
  owned : ∀ l, l ∈ held ↔ s.owner l = some t

def Ordered (rank : L → Nat) (low : Nat) (s : System T L) : Prop :=
  ∀ t, ∃ held, Holds rank low s t held

theorem inner_check (hh : Level rank low low handler) (h : Inner handler k k')
    (hk : checkAll rank low k held = some []) : checkAll rank low k' held = some [] := by
  cases h with
  | skip => exact hk
  | seq =>
      rw [checkAll, check, Option.bind_assoc] at hk
      rw [checkAll]
      exact hk
  | @left p q =>
      rw [checkAll, check] at hk
      by_cases heq : check rank low p held = check rank low q held
      · rw [if_pos heq] at hk
        exact hk
      · rw [if_neg heq] at hk
        cases hk
  | @right p q =>
      rw [checkAll, check] at hk
      by_cases heq : check rank low p held = check rank low q held
      · rw [if_pos heq, heq] at hk
        exact hk
      · rw [if_neg heq] at hk
        cases hk
  | @stop p =>
      rw [checkAll, check] at hk
      by_cases hp : check rank low p held = some held
      · rw [if_pos hp] at hk
        exact hk
      · rw [if_neg hp] at hk
        cases hk
  | @again p =>
      have hk' := hk
      rw [checkAll, check] at hk
      by_cases hp : check rank low p held = some held
      · rw [checkAll, hp]
        exact hk'
      · rw [if_neg hp] at hk
        cases hk
  | ret =>
      rw [checkAll, check] at hk
      by_cases hlow : ∀ x ∈ held, rank x < low
      · rw [if_pos hlow] at hk
        exact hk
      · rw [if_neg hlow] at hk
        cases hk
  | signal =>
      have hk' := hk
      rw [checkAll, check] at hk
      by_cases hlow : ∀ x ∈ held, rank x < low
      · rw [checkAll, hh held hlow]
        exact hk'
      · rw [if_neg hlow] at hk
        cases hk

theorem acquire_check (hk : checkAll rank low (.lock l :: k) held = some []) :
    (∀ x ∈ held, rank x < rank l) ∧ checkAll rank low k (l :: held) = some [] := by
  rw [checkAll, check] at hk
  by_cases hl : ∀ x ∈ held, rank x < rank l
  · rw [if_pos hl] at hk
    exact ⟨hl, hk⟩
  · rw [if_neg hl] at hk
    cases hk

theorem release_check (hk : checkAll rank low (.unlock l :: k) held = some []) :
    l ∈ held ∧ checkAll rank low k (held.erase l) = some [] := by
  rw [checkAll, check] at hk
  by_cases hl : l ∈ held
  · rw [if_pos hl] at hk
    exact ⟨hl, hk⟩
  · rw [if_neg hl] at hk
    cases hk

/-- No step breaks the order. -/
theorem Step.ordered (hh : Level rank low low handler) (h : Step handler s s')
    (hs : Ordered rank low s) : Ordered rank low s' := by
  intro u
  obtain ⟨held, hu⟩ := hs u
  cases h with
  | @inner t k hin =>
      by_cases htu : u = t
      · subst htu
        refine ⟨held, ?_, hu.nodup, hu.owned⟩
        rw [System.put_self]
        exact inner_check hh hin hu.rest
      · refine ⟨held, ?_, hu.nodup, hu.owned⟩
        rw [System.put_other s htu]
        exact hu.rest
  | @acquire t l k htop hfree =>
      have hnot : l ∉ held := fun hl => by
        rw [(hu.owned l).mp hl] at hfree
        cases hfree
      by_cases htu : u = t
      · subst htu
        have hrest := hu.rest
        rw [htop] at hrest
        refine ⟨l :: held, ?_, List.nodup_cons.mpr ⟨hnot, hu.nodup⟩, fun x => ?_⟩
        · rw [System.put_self]
          exact (acquire_check hrest).2
        · by_cases hx : x = l
          · simp [hx]
          · rw [List.mem_cons, System.put_owner, Function.update_of_ne hx, hu.owned x, or_iff_right hx]
      · refine ⟨held, ?_, hu.nodup, fun x => ?_⟩
        · rw [System.put_other s htu]
          exact hu.rest
        · by_cases hx : x = l
          · simp [hx, hnot, Ne.symm htu]
          · rw [System.put_owner, Function.update_of_ne hx]
            exact hu.owned x
  | @release t l k htop hown =>
      by_cases htu : u = t
      · subst htu
        have hrest := hu.rest
        rw [htop] at hrest
        refine ⟨held.erase l, ?_, hu.nodup.erase l, fun x => ?_⟩
        · rw [System.put_self]
          exact (release_check hrest).2
        · rw [hu.nodup.mem_erase_iff]
          by_cases hx : x = l
          · simp [hx]
          · rw [System.put_owner, Function.update_of_ne hx, hu.owned x, and_iff_right hx]
      · have hnot : l ∉ held := fun hl => by
          rw [(hu.owned l).mp hl] at hown
          exact htu (Option.some.inj hown)
        refine ⟨held, ?_, hu.nodup, fun x => ?_⟩
        · rw [System.put_other s htu]
          exact hu.rest
        · by_cases hx : x = l
          · simp [hx, hnot]
          · rw [System.put_owner, Function.update_of_ne hx]
            exact hu.owned x

theorem Steps.ordered (hh : Level rank low low handler) (h : Steps handler s s')
    (hs : Ordered rank low s) : Ordered rank low s' := by
  induction h with
  | refl => exact hs
  | tail _ hstep ih => exact hstep.ordered hh ih

/-! ## Nobody waits forever -/

/-- A thread waits for a lock that somebody has. -/
structure Waits (s : System T L) (t : T) (l : L) : Prop where
  top : ∃ k, s.threads t = .lock l :: k
  taken : s.owner l ≠ none

/-- How much all threads have left to run at the shortest. -/
def System.left [Fintype T] (s : System T L) : Nat := ∑ t, ((s.threads t).map Prog.size).sum

omit [DecidableEq L] in
theorem put_left [Fintype T] (owner : L → Option T)
    (h : (k.map Prog.size).sum < ((s.threads t).map Prog.size).sum) :
    (s.put t k owner).left < s.left := by
  refine Finset.sum_lt_sum (fun u _ => ?_) ⟨t, Finset.mem_univ t, ?_⟩
  · by_cases hu : u = t
    · rw [hu, System.put_self]
      exact h.le
    · rw [System.put_other s hu]
  · rw [System.put_self]
    exact h

/-- A thread that has not ended waits for a lock or can take a step towards its end. -/
theorem step_or_waits [Fintype T] (hs : Ordered rank low s) (ht : s.threads t ≠ []) :
    (∃ s', Step handler s s' ∧ s'.left < s.left) ∨ ∃ l, Waits s t l := by
  obtain ⟨held, hheld⟩ := hs t
  have inner : ∀ k', Inner handler (s.threads t) k' →
      (k'.map Prog.size).sum < ((s.threads t).map Prog.size).sum →
      ∃ s', Step handler s s' ∧ s'.left < s.left :=
    fun k' hin hlt => ⟨_, .inner hin, put_left s.owner hlt⟩
  cases htop : s.threads t with
  | nil => exact absurd htop ht
  | cons p k =>
      rw [htop] at inner
      cases p with
      | skip => exact .inl (inner k .skip (by simp [Prog.size]))
      | lock l =>
          by_cases hfree : s.owner l = none
          · exact .inl ⟨_, .acquire htop hfree, put_left _ (by simp [htop, Prog.size])⟩
          · exact .inr ⟨l, ⟨k, htop⟩, hfree⟩
      | unlock l =>
          have hrest := hheld.rest
          rw [htop] at hrest
          have hown : s.owner l = some t := (hheld.owned l).mp (release_check hrest).1
          exact .inl ⟨_, .release htop hown, put_left _ (by simp [htop, Prog.size])⟩
      | call => exact .inl (inner k .ret (by simp [Prog.size]))
      | seq p q =>
          exact .inl (inner _ .seq (by simp only [List.map_cons, List.sum_cons, Prog.size]; omega))
      | either p q =>
          exact .inl (inner _ .left (by simp only [List.map_cons, List.sum_cons, Prog.size]; omega))
      | many p => exact .inl (inner k .stop (by simp [Prog.size]))

omit [DecidableEq T] in
/-- Who has the lock that a thread waits for has not ended, and waits only for one of a higher
rank. -/
theorem Waits.owner (hs : Ordered rank low s) (h : Waits s t l) :
    ∃ t', s.threads t' ≠ [] ∧ ∀ l', Waits s t' l' → rank l < rank l' := by
  obtain ⟨t', hown⟩ := Option.ne_none_iff_exists'.mp h.taken
  obtain ⟨held, hheld⟩ := hs t'
  have hl : l ∈ held := (hheld.owned l).mpr hown
  refine ⟨t', fun hend => ?_, ?_⟩
  · have hrest := hheld.rest
    rw [hend] at hrest
    rw [Option.some.inj hrest] at hl
    cases hl
  · rintro l' ⟨⟨k, htop⟩, -⟩
    have hrest := hheld.rest
    rw [htop] at hrest
    exact (acquire_check hrest).1 l hl

/-- As long as a thread has not ended, some thread can take a step towards its end. By induction on
how many ranks are above the lock that is waited for. -/
theorem Ordered.progress [Fintype T] {bound : Nat} (hb : ∀ l, rank l < bound)
    (hs : Ordered rank low s) (ht : s.threads t ≠ []) :
    ∃ s', Step handler s s' ∧ s'.left < s.left := by
  have key : ∀ n (t : T), s.threads t ≠ [] → (∀ l, Waits s t l → bound - rank l ≤ n) →
      ∃ s', Step handler s s' ∧ s'.left < s.left := by
    intro n
    induction n with
    | zero =>
        intro t ht hn
        rcases step_or_waits hs ht with hstep | ⟨l, hl⟩
        · exact hstep
        · have hzero := hn l hl
          have hlt := hb l
          omega
    | succ n ih =>
        intro t ht hn
        rcases step_or_waits hs ht with hstep | ⟨l, hl⟩
        · exact hstep
        · obtain ⟨t', ht', hrank⟩ := hl.owner hs
          refine ih t' ht' fun l' hl' => ?_
          have hmore := hrank l' hl'
          have hle := hn l hl
          omega
  exact key bound t ht fun l _ => Nat.sub_le _ _

omit [DecidableEq T] in
/-- When every thread has ended, no lock is held. -/
theorem Ordered.over (hs : Ordered rank low s) (h : ∀ t, s.threads t = []) :
    s.Over := by
  refine ⟨h, fun l => ?_⟩
  cases hown : s.owner l with
  | none => rfl
  | some t =>
      obtain ⟨held, hheld⟩ := hs t
      have hl : l ∈ held := (hheld.owned l).mpr hown
      have hrest := hheld.rest
      rw [h t] at hrest
      rw [Option.some.inj hrest] at hl
      cases hl

theorem Ordered.finishes [Fintype T] {bound : Nat} (hb : ∀ l, rank l < bound)
    (hh : Level rank low low handler) (hs : Ordered rank low s) :
    ∃ s', Steps handler s s' ∧ s'.Over := by
  induction hn : s.left using Nat.strong_induction_on generalizing s with
  | _ n ih =>
      by_cases hend : ∀ t, s.threads t = []
      · exact ⟨s, .refl, hs.over hend⟩
      · obtain ⟨t, ht⟩ := not_forall.mp hend
        obtain ⟨s₁, hstep, hless⟩ := hs.progress hb ht
        obtain ⟨s₂, hsteps, hover⟩ := ih s₁.left (hn ▸ hless) (hstep.ordered hh hs) rfl
        exact ⟨s₂, .head hstep hsteps, hover⟩

/-- Nobody has a lock. -/
def System.start (threads : T → List (Prog L)) : System T L := ⟨threads, fun _ => none⟩

/-- Wherever threads are in programs that keep the order, with handlers in handlers or not, they can
all go on to their ends, and then every lock is free. -/
theorem ordered_finishes [Fintype T] {bound : Nat} (hb : ∀ l, rank l < bound)
    (hh : Level rank low low handler) {threads : T → List (Prog L)}
    (hp : ∀ t, ∀ p ∈ threads t, Level rank low 0 p) (h : Steps handler (.start threads) s) :
    ∃ s', Steps handler s s' ∧ s'.Over := by
  refine Ordered.finishes hb hh (h.ordered hh fun t => ⟨[], checkAll_level (hp t), .nil, fun l => ?_⟩)
  simp [System.start]

end Locks
