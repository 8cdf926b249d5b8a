import Mathlib.Algebra.BigOperators.Fin
import Mathlib.Algebra.Order.BigOperators.Group.Finset
import ApeShim.Epoll.Threads

/-!
The pipe-pair table behind the write hint (`shim/epoll.c`), and the process
around it: up to 32 epoll sets, the creation hooks, and `write_result` of
`shim/io.c`. A recorded pair is found again as long as fewer than 32 pairs were
recorded after it, whether or not those are still in the table: dropped slots
are not reused before the cursor comes round.
-/

namespace ApeShim.Epoll
open Flags

/-! ## The table -/

/-- `SHIM_PIPE_PAIRS`. -/
def pipePairs : Nat := 32

structure Pair where
  r : Int
  w : Int
  deriving DecidableEq, Repr

/-- `g_pairs`, `g_pairs_next` and `g_pairs_live`. -/
structure PairTable where
  slots : Fin pipePairs → Pair
  next : Nat
  live : Int

namespace PairTable

def empty : PairTable := ⟨fun _ => ⟨0, 0⟩, 0, 0⟩

/-- A taken slot that mentions `fd`. -/
def names (t : PairTable) (fd : Int) (i : Fin pipePairs) : Bool :=
  (t.slots i).w ≠ 0 && ((t.slots i).r = fd || (t.slots i).w = fd)

end PairTable

/-- The slot `g_pairs_next` points at. -/
def slotOf (n : Nat) : Fin pipePairs := ⟨n % pipePairs, Nat.mod_lt n (by decide)⟩

def pairsDropLocked (t : PairTable) (fd : Int) : PairTable where
  slots := fun i => if t.names fd i then ⟨0, 0⟩ else t.slots i
  next := t.next
  live := t.live - ∑ i, if t.names fd i then 1 else 0

def noteNewFd (t : PairTable) (fd : Int) : PairTable :=
  if fd < 0 ∨ t.live = 0 then t else pairsDropLocked t fd

/-- `none` where `g_pairs_next++` would overflow. A write end on number 0 is
not stored: 0 marks an empty slot. -/
def pairsInsertLocked (t : PairTable) (rfd wfd : Int) : Option PairTable :=
  if rfd < 0 ∨ wfd ≤ 0 then some t
  else if t.next + 1 < 2 ^ 31 then
    some
      { slots := Function.update t.slots (slotOf t.next) ⟨rfd, wfd⟩
        next := t.next + 1
        live := (if (t.slots (slotOf t.next)).w ≠ 0 then t.live - 1 else t.live) + 1 }
  else none

def notePipe (t : PairTable) (rfd wfd : Int) : Option PairTable :=
  if rfd < 0 ∨ wfd < 0 then some t
  else pairsInsertLocked (pairsDropLocked (pairsDropLocked t rfd) wfd) rfd wfd

/-- For socketpair, where either end may serve as the never-read side. -/
def notePair (t : PairTable) (a b : Int) : Option PairTable :=
  if a < 0 ∨ b < 0 then some t
  else (pairsInsertLocked (pairsDropLocked (pairsDropLocked t a) b) a b).bind fun t' =>
    pairsInsertLocked t' b a

/-- The read end `hint_pipe_write` re-arms, if any. -/
def hintPipeWrite (t : PairTable) (wfd : Int) : Option Int :=
  if wfd ≤ 0 ∨ t.live = 0 then none
  else
    match (List.finRange pipePairs).find? fun i => (t.slots i).w = wfd with
    | none => none
    | some i => if 0 ≤ (t.slots i).r then some (t.slots i).r else none

/-! ## The process -/

/-- The emulated sets, `none` where the slot of `g_sets` is not in use. -/
structure Process where
  table : PairTable
  sets : Fin maxSets → Option State

namespace Process

def init : Process := ⟨PairTable.empty, fun _ => none⟩

def rearm (p : Process) (fd : Int) (bits : BitVec 32) : Process :=
  { p with sets := fun i => (p.sets i).map fun s => s.rearm fd bits }

def rearmOut (p : Process) (fd : Int) : Process := if fd < 0 then p else p.rearm fd ARM_OUT

def hint (p : Process) (wfd : Int) : Process :=
  match hintPipeWrite p.table wfd with
  | none => p
  | some rfd => p.rearm rfd ARM_IN

end Process

/-- `write_result`: the host's write returned `r`, with EAGAIN if `eagain`. -/
def writeResult (p : Process) (fd r : Int) (eagain : Bool) (want : Nat) : Process :=
  if 0 < r then
    if r < want then (p.hint fd).rearmOut fd else p.hint fd
  else if r = -1 ∧ eagain then p.rearmOut fd
  else p

/-- Two numbers the host gives out in one call. -/
structure Ends where
  r : Int
  w : Int
  hr : 0 ≤ r
  hw : 0 ≤ w
  ne : r ≠ w

inductive Act
  | pipe (e : Ends)
  | socketpair (e : Ends)
  /-- any other creation that reaches `note_new_fd` -/
  | newFd (fd : Int)
  /-- close is not intercepted -/
  | closed (fd : Int)
  | create (i : Fin maxSets)
  | retire (i : Fin maxSets)
  /-- a step of `epoll_ctl` or `epoll_wait` on the set `i` -/
  | inSet (i : Fin maxSets) (a : Label)
  /-- the hooks of the read side and of EAGAIN -/
  | rearm (fd : Int) (bits : BitVec 32)
  | write (fd r : Int) (eagain : Bool) (want : Nat)

/-- What an action does to the table. -/
def Act.record (t : PairTable) : Act → Option PairTable
  | .pipe e => notePipe t e.r e.w
  | .socketpair e => notePair t e.r e.w
  | .newFd fd => some (noteNewFd t fd)
  | _ => some t

/-- What an action does to the sets; a label that is not enabled does nothing. -/
def Act.apply (c : Fin maxSets → Config) (p : Process) : Act → Process
  | .create i => { p with sets := Function.update p.sets i (some State.init) }
  | .retire i => { p with sets := Function.update p.sets i none }
  | .inSet i a =>
      let after := (p.sets i).map fun s => ((step (c i) s a).map Prod.fst).getD s
      { p with sets := Function.update p.sets i after }
  | .rearm fd bits => p.rearm fd bits
  | .write fd r eagain want => writeResult p fd r eagain want
  | _ => p

def Process.step (c : Fin maxSets → Config) (p : Process) (a : Act) : Option Process :=
  (a.record p.table).map fun t => { a.apply c p with table := t }

def Process.run (c : Fin maxSets → Config) (p : Process) : List Act → Option Process
  | [] => some p
  | a :: rest => (p.step c a).bind fun q => q.run c rest

/-! ## What an action records -/

/-- The action records `w` as the write end for `r`. -/
def Act.makes (r w : Int) : Act → Prop
  | .pipe e => e.r = r ∧ e.w = w
  | .socketpair e => (e.r = r ∧ e.w = w) ∨ (e.w = r ∧ e.r = w)
  | _ => False

/-- The action closes the number `fd` or gives it out again. -/
def Act.touches (fd : Int) : Act → Prop
  | .pipe e | .socketpair e => e.r = fd ∨ e.w = fd
  | .newFd fd' | .closed fd' => fd' = fd
  | _ => False

/-- The pairs an action puts into the table. -/
def Act.records : Act → Nat
  | .pipe e => if 0 < e.w then 1 else 0
  | .socketpair e => (if 0 < e.w then 1 else 0) + if 0 < e.r then 1 else 0
  | _ => 0

/-- The pairs it puts there after the one that writes to `w`. -/
def Act.recordsAfter (w : Int) : Act → Nat
  | .socketpair e => if e.w = w ∧ 0 < e.r then 1 else 0
  | _ => 0

def recorded (l : List Act) : Nat := (l.map Act.records).sum

/-! ## The live count -/

/-- `g_pairs_live` counts the taken slots, so the fast path is never wrong. -/
def PairTable.Exact (t : PairTable) : Prop :=
  t.live = ∑ i, if (t.slots i).w ≠ 0 then 1 else 0

theorem PairTable.Exact.live_ne_zero {t : PairTable} (h : t.Exact) {i : Fin pipePairs}
    (hi : (t.slots i).w ≠ 0) : t.live ≠ 0 := by
  have hle := Finset.single_le_sum (s := Finset.univ)
    (f := fun j => if (t.slots j).w ≠ 0 then (1 : Int) else 0)
    (fun j _ => by split <;> decide) (Finset.mem_univ i)
  simp only [hi, ne_eq, not_false_eq_true, ↓reduceIte] at hle
  rw [h]
  simp only [ne_eq] at hle ⊢
  omega

theorem exact_drop {t : PairTable} (h : t.Exact) (fd : Int) : (pairsDropLocked t fd).Exact := by
  simp only [PairTable.Exact, pairsDropLocked]
  rw [h, ← Finset.sum_sub_distrib]
  refine Finset.sum_congr rfl fun i _ => ?_
  by_cases hn : t.names fd i = true
  · have hw : (t.slots i).w ≠ 0 := by
      simp only [PairTable.names, Bool.and_eq_true, decide_eq_true_eq] at hn
      exact hn.1
    simp [hn, hw]
  · simp [hn]

theorem exact_insert {t t' : PairTable} (h : t.Exact) {rfd wfd : Int}
    (hi : pairsInsertLocked t rfd wfd = some t') : t'.Exact := by
  unfold pairsInsertLocked at hi
  split at hi
  · cases hi; exact h
  · rename_i hpos
    split at hi <;> cases hi
    simp only [PairTable.Exact]
    have hw : wfd ≠ 0 := by omega
    -- the sum changes only at the slot under the cursor
    have hsum : ∀ f : Fin pipePairs → Pair, (∑ i, if (f i).w ≠ 0 then (1 : Int) else 0) =
        (if (f (slotOf t.next)).w ≠ 0 then 1 else 0) +
          ∑ i ∈ Finset.univ.erase (slotOf t.next), if (f i).w ≠ 0 then 1 else 0 :=
      fun f => (Finset.add_sum_erase _ _ (Finset.mem_univ _)).symm
    have hrest : (∑ i ∈ Finset.univ.erase (slotOf t.next),
        if (Function.update t.slots (slotOf t.next) ⟨rfd, wfd⟩ i).w ≠ 0 then (1 : Int) else 0) =
        ∑ i ∈ Finset.univ.erase (slotOf t.next), if (t.slots i).w ≠ 0 then 1 else 0 := by
      refine Finset.sum_congr rfl fun i hmem => ?_
      rw [Function.update_of_ne (Finset.ne_of_mem_erase hmem)]
    rw [hsum, hrest, Function.update_self]
    have hold := h
    rw [PairTable.Exact, hsum] at hold
    rw [hold]
    split <;> simp_all [add_comm]

theorem Ends.valid (e : Ends) : ¬ (e.r < 0 ∨ e.w < 0) := by
  have hr := e.hr
  have hw := e.hw
  omega

theorem record_pipe (t : PairTable) (e : Ends) : (Act.pipe e).record t =
    pairsInsertLocked (pairsDropLocked (pairsDropLocked t e.r) e.w) e.r e.w :=
  if_neg e.valid

theorem record_socketpair (t : PairTable) (e : Ends) : (Act.socketpair e).record t =
    (pairsInsertLocked (pairsDropLocked (pairsDropLocked t e.r) e.w) e.r e.w).bind fun t' =>
      pairsInsertLocked t' e.w e.r :=
  if_neg e.valid

theorem exact_record {t t' : PairTable} (h : t.Exact) {a : Act} (ha : a.record t = some t') :
    t'.Exact := by
  cases a with
  | pipe e =>
    rw [record_pipe] at ha
    exact exact_insert (exact_drop (exact_drop h _) _) ha
  | socketpair e =>
    rw [record_socketpair] at ha
    obtain ⟨t₁, h₁, h₂⟩ := Option.bind_eq_some_iff.mp ha
    exact exact_insert (exact_insert (exact_drop (exact_drop h _) _) h₁) h₂
  | newFd fd =>
    simp only [Act.record, noteNewFd, Option.some.injEq] at ha
    subst ha
    split
    · exact h
    · exact exact_drop h fd
  | _ => cases ha; exact h

/-! ## When the cursor overflows -/

theorem insert_next {t t' : PairTable} {rfd wfd : Int} (hr : 0 ≤ rfd)
    (h : pairsInsertLocked t rfd wfd = some t') :
    t'.next = t.next + if 0 < wfd then 1 else 0 := by
  unfold pairsInsertLocked at h
  split at h
  · cases h
    rw [if_neg (by omega)]
    rfl
  · rename_i hput
    have hw : 0 < wfd := by omega
    rw [if_pos hw]
    split at h
    · cases h; rfl
    · cases h

theorem insert_defined {t : PairTable} {rfd wfd : Int} (hr : 0 ≤ rfd) (hn : t.next < 2 ^ 31) :
    (∃ t', pairsInsertLocked t rfd wfd = some t') ↔
      t.next + (if 0 < wfd then 1 else 0) < 2 ^ 31 := by
  unfold pairsInsertLocked
  by_cases hw : 0 < wfd
  · rw [if_neg (by omega), if_pos hw]
    split <;> simp_all
  · rw [if_pos (by omega), if_neg hw]
    simpa using hn

/-- Both insertions of `note_pair`. -/
theorem insertBoth_next {t t' : PairTable} {a b : Int} (ha : 0 ≤ a) (hb : 0 ≤ b)
    (h : ((pairsInsertLocked t a b).bind fun t₁ => pairsInsertLocked t₁ b a) = some t') :
    t'.next = t.next + ((if 0 < b then 1 else 0) + if 0 < a then 1 else 0) := by
  obtain ⟨t₁, h₁, h₂⟩ := Option.bind_eq_some_iff.mp h
  rw [insert_next hb h₂, insert_next ha h₁, Nat.add_assoc]

theorem insertBoth_defined {t : PairTable} {a b : Int} (ha : 0 ≤ a) (hb : 0 ≤ b)
    (hn : t.next < 2 ^ 31) :
    (∃ t', ((pairsInsertLocked t a b).bind fun t₁ => pairsInsertLocked t₁ b a) = some t') ↔
      t.next + ((if 0 < b then 1 else 0) + if 0 < a then 1 else 0) < 2 ^ 31 := by
  have hfirst := @insert_defined t a b ha hn
  constructor
  · rintro ⟨t', h⟩
    obtain ⟨t₁, h₁, h₂⟩ := Option.bind_eq_some_iff.mp h
    have hlt := hfirst.mp ⟨t₁, h₁⟩
    rw [← insert_next ha h₁] at hlt
    have hsecond := (insert_defined hb hlt).mp ⟨t', h₂⟩
    rw [insert_next ha h₁, Nat.add_assoc] at hsecond
    exact hsecond
  · intro h
    rw [← Nat.add_assoc] at h
    obtain ⟨t₁, h₁⟩ := hfirst.mpr (Nat.lt_of_le_of_lt (Nat.le_add_right _ _) h)
    have hnext := insert_next ha h₁
    rw [← hnext] at h
    obtain ⟨t₂, h₂⟩ := (insert_defined hb (Nat.lt_of_le_of_lt (Nat.le_add_right _ _) h)).mpr h
    exact ⟨t₂, Option.bind_eq_some_iff.mpr ⟨t₁, h₁, h₂⟩⟩

theorem record_next {t t' : PairTable} {a : Act} (h : a.record t = some t') :
    t'.next = t.next + a.records := by
  cases a with
  | pipe e =>
    rw [record_pipe] at h
    have hnext := insert_next e.hr h
    exact hnext
  | socketpair e =>
    rw [record_socketpair] at h
    have hnext := insertBoth_next e.hr e.hw h
    exact hnext
  | newFd fd =>
    simp only [Act.record, noteNewFd, Option.some.injEq] at h
    subst h
    split <;> rfl
  | _ => cases h; rfl

theorem record_defined {t : PairTable} (hn : t.next < 2 ^ 31) (a : Act) :
    (∃ t', a.record t = some t') ↔ t.next + a.records < 2 ^ 31 := by
  cases a with
  | pipe e =>
    rw [record_pipe]
    exact insert_defined e.hr hn
  | socketpair e =>
    rw [record_socketpair]
    exact insertBoth_defined e.hr e.hw hn
  | _ => simpa [Act.record, Act.records] using hn

theorem step_record {c : Fin maxSets → Config} {p q : Process} {a : Act}
    (h : p.step c a = some q) : a.record p.table = some q.table := by
  obtain ⟨t, ht, rfl⟩ := Option.map_eq_some_iff.mp h
  exact ht

/-- A run is cut short exactly when it records 2^31 pairs. -/
theorem run_defined (c : Fin maxSets → Config) (l : List Act) :
    ∀ p : Process, p.table.next < 2 ^ 31 →
      ((∃ q, p.run c l = some q) ↔ p.table.next + recorded l < 2 ^ 31) := by
  induction l with
  | nil =>
    intro p hn
    simpa [Process.run, recorded] using hn
  | cons a l ih =>
    intro p hn
    have hsum : recorded (a :: l) = a.records + recorded l := by simp [recorded]
    constructor
    · rintro ⟨q, hq⟩
      obtain ⟨p₁, h₁, h₂⟩ := Option.bind_eq_some_iff.mp hq
      have hrec := step_record h₁
      have hnext := record_next hrec
      have hlt := (record_defined hn a).mp ⟨_, hrec⟩
      have := (ih p₁ (by omega)).mp ⟨q, h₂⟩
      omega
    · intro h
      obtain ⟨t, ht⟩ := (record_defined hn a).mpr (by omega)
      have hnext := record_next ht
      obtain ⟨q, hq⟩ := (ih { a.apply c p with table := t } (by dsimp only; omega)).mpr
        (by dsimp only; omega)
      refine ⟨q, Option.bind_eq_some_iff.mpr ⟨_, ?_, hq⟩⟩
      simp [Process.step, ht]

theorem run_append (c : Fin maxSets → Config) (l m : List Act) (p : Process) :
    p.run c (l ++ m) = (p.run c l).bind fun q => q.run c m := by
  induction l generalizing p with
  | nil => rfl
  | cons a l ih =>
    simp only [List.cons_append, Process.run, Option.bind_assoc]
    congr 1
    funext q
    exact ih q

/-! ## Where a pair is -/

/-- The pair recorded when the cursor stood at `start`, `age` records ago: it is
in its slot until the cursor comes round, and no other slot writes to `w`. -/
structure Tracks (t : PairTable) (r w : Int) (start age : Nat) : Prop where
  next : t.next = start + 1 + age
  kept : age < pipePairs → t.slots (slotOf start) = ⟨r, w⟩
  only : ∀ i, (t.slots i).w = w → age < pipePairs ∧ i = slotOf start

theorem Tracks.drop {t : PairTable} {r w : Int} {start age : Nat} (hw : 0 < w)
    (h : Tracks t r w start age) {fd : Int} (hr' : fd ≠ r) (hw' : fd ≠ w) :
    Tracks (pairsDropLocked t fd) r w start age := by
  refine ⟨h.next, fun hage => ?_, fun i hi => ?_⟩
  · have hn : t.names fd (slotOf start) = false := by
      simp [PairTable.names, h.kept hage, Ne.symm hr', Ne.symm hw']
    simp only [pairsDropLocked, hn, Bool.false_eq_true, ↓reduceIte]
    exact h.kept hage
  · simp only [pairsDropLocked] at hi
    split at hi
    · dsimp only at hi; omega
    · exact h.only i hi

theorem slotOf_ne {start age : Nat} (h : age + 1 < pipePairs) :
    slotOf (start + 1 + age) ≠ slotOf start := by
  simp only [slotOf, pipePairs, ne_eq, Fin.mk.injEq] at h ⊢
  omega

theorem slotOf_lap (start : Nat) : slotOf (start + 1 + 31) = slotOf start := by
  simp only [slotOf, pipePairs, Fin.mk.injEq]
  omega

theorem Tracks.insert {t t' : PairTable} {r w : Int} {start age : Nat}
    (h : Tracks t r w start age) {rfd wfd : Int} (hr : 0 ≤ rfd) (hne : wfd ≠ w)
    (hi : pairsInsertLocked t rfd wfd = some t') :
    Tracks t' r w start (age + if 0 < wfd then 1 else 0) := by
  have hnext := insert_next hr hi
  rw [h.next, Nat.add_assoc] at hnext
  unfold pairsInsertLocked at hi
  split at hi
  · cases hi
    rw [if_neg (by omega)]
    exact h
  · have hpos : 0 < wfd := by omega
    simp only [hpos, ↓reduceIte] at hnext ⊢
    split at hi
    · cases hi
      refine ⟨hnext, fun hage => ?_, fun i hw => ?_⟩
      · dsimp only
        rw [h.next, Function.update_of_ne (slotOf_ne hage).symm]
        exact h.kept (by omega)
      · dsimp only at hw
        rw [h.next, Function.update_apply] at hw
        split at hw
        · exact absurd hw hne
        · rename_i hslot
          obtain ⟨hage, rfl⟩ := h.only i hw
          refine ⟨Nat.lt_of_le_of_ne hage fun hlast => hslot ?_, rfl⟩
          have h31 : age = 31 := by simp only [pipePairs] at hlast; omega
          rw [h31, slotOf_lap]
    · cases hi

/-- No slot writes to `w`. -/
def PairTable.Silent (t : PairTable) (w : Int) : Prop := ∀ i, (t.slots i).w ≠ w

theorem silent_drop {t : PairTable} {w : Int} (hw : 0 < w) : (pairsDropLocked t w).Silent w := by
  intro i
  simp only [pairsDropLocked]
  split
  · dsimp only; omega
  · rename_i hn
    intro h
    refine hn ?_
    have hne : w ≠ 0 := by omega
    simp [PairTable.names, h, hne]

theorem PairTable.Silent.drop {t : PairTable} {w : Int} (h : t.Silent w) (hw : 0 < w) (fd : Int) :
    (pairsDropLocked t fd).Silent w := by
  intro i
  simp only [pairsDropLocked]
  split
  · dsimp only; omega
  · exact h i

theorem PairTable.Silent.insert {t t' : PairTable} {w rfd wfd : Int} (h : t.Silent w)
    (hne : wfd ≠ w) (hi : pairsInsertLocked t rfd wfd = some t') : t'.Silent w := by
  unfold pairsInsertLocked at hi
  split at hi
  · cases hi; exact h
  · split at hi <;> cases hi
    intro i
    dsimp only
    rw [Function.update_apply]
    split
    · exact hne
    · exact h i

theorem PairTable.Silent.tracks {t t' : PairTable} {r w : Int} (h : t.Silent w) (hr : 0 ≤ r)
    (hw : 0 < w) (hi : pairsInsertLocked t r w = some t') : Tracks t' r w t.next 0 := by
  have hnext := insert_next hr hi
  unfold pairsInsertLocked at hi
  rw [if_neg (by omega)] at hi
  split at hi
  · cases hi
    refine ⟨rfl, fun _ => ?_, fun i hw => ?_⟩
    · simp
    · dsimp only at hw
      rw [Function.update_apply] at hw
      split at hw
      · rename_i hslot
        exact ⟨by decide, hslot⟩
      · exact absurd hw (h i)
  · cases hi

theorem tracks_makes {t t' : PairTable} {r w : Int} {a : Act} (hm : a.makes r w) (hw : 0 < w)
    (ha : a.record t = some t') : ∃ start, Tracks t' r w start (a.recordsAfter w) := by
  cases a with
  | pipe e =>
    obtain ⟨rfl, rfl⟩ := hm
    rw [record_pipe] at ha
    exact ⟨_, (silent_drop hw).tracks e.hr hw ha⟩
  | socketpair e =>
    rw [record_socketpair] at ha
    obtain ⟨t₁, h₁, h₂⟩ := Option.bind_eq_some_iff.mp ha
    rcases hm with ⟨rfl, rfl⟩ | ⟨rfl, rfl⟩
    · have hmade := ((silent_drop hw).tracks e.hr hw h₁).insert e.hw e.ne h₂
      simp only [Nat.zero_add] at hmade
      exact ⟨_, by simpa [Act.recordsAfter] using hmade⟩
    · have hsilent : t₁.Silent e.r := ((silent_drop hw).drop hw _).insert (Ne.symm e.ne) h₁
      exact ⟨t₁.next, by
        simpa [Act.recordsAfter, Ne.symm e.ne] using hsilent.tracks e.hw hw h₂⟩
  | _ => exact hm.elim

theorem Tracks.record {t t' : PairTable} {r w : Int} {start age : Nat} (hw : 0 < w)
    (h : Tracks t r w start age) {a : Act} (hr' : ¬ a.touches r) (hw' : ¬ a.touches w)
    (ha : a.record t = some t') : Tracks t' r w start (age + a.records) := by
  cases a with
  | pipe e =>
    simp only [Act.touches, not_or] at hr' hw'
    rw [record_pipe] at ha
    exact ((h.drop hw hr'.1 hw'.1).drop hw hr'.2 hw'.2).insert e.hr hw'.2 ha
  | socketpair e =>
    simp only [Act.touches, not_or] at hr' hw'
    rw [record_socketpair] at ha
    obtain ⟨t₁, h₁, h₂⟩ := Option.bind_eq_some_iff.mp ha
    have hfirst := ((h.drop hw hr'.1 hw'.1).drop hw hr'.2 hw'.2).insert e.hr hw'.2 h₁
    have hsecond := hfirst.insert e.hw hw'.1 h₂
    rw [Nat.add_assoc] at hsecond
    exact hsecond
  | newFd fd =>
    simp only [Act.record, noteNewFd, Option.some.injEq] at ha
    subst ha
    split
    · exact h
    · exact h.drop hw hr' hw'
  | _ => cases ha; exact h

theorem tracks_run {c : Fin maxSets → Config} {r w : Int} {start : Nat} (hw : 0 < w) (l : List Act) :
    ∀ {p q : Process} {age : Nat}, (∀ a ∈ l, ¬ a.touches r ∧ ¬ a.touches w) →
      Tracks p.table r w start age → p.run c l = some q →
      Tracks q.table r w start (age + recorded l) := by
  induction l with
  | nil =>
    intro p q age _ h hq
    cases hq
    exact h
  | cons a l ih =>
    intro p q age hl h hq
    obtain ⟨p₁, h₁, h₂⟩ := Option.bind_eq_some_iff.mp hq
    obtain ⟨hr', hw'⟩ := hl a (by simp)
    have hnext := h.record hw hr' hw' (step_record h₁)
    have hend := ih (fun b hb => hl b (by simp [hb])) hnext h₂
    simpa [recorded, Nat.add_assoc] using hend

theorem exact_run {c : Fin maxSets → Config} (l : List Act) :
    ∀ {p q : Process}, p.table.Exact → p.run c l = some q → q.table.Exact := by
  induction l with
  | nil => intro p q h hq; cases hq; exact h
  | cons a l ih =>
    intro p q h hq
    obtain ⟨p₁, h₁, h₂⟩ := Option.bind_eq_some_iff.mp hq
    exact ih (exact_record h (step_record h₁)) h₂

theorem Tracks.hint {t : PairTable} {r w : Int} {start age : Nat} (h : Tracks t r w start age)
    (hexact : t.Exact) (hr : 0 ≤ r) (hw : 0 < w) :
    hintPipeWrite t w = if age < pipePairs then some r else none := by
  unfold hintPipeWrite
  split_ifs with hskip hage hage
  · rcases hskip with hneg | hlive
    · omega
    · refine absurd hlive (hexact.live_ne_zero (i := slotOf start) ?_)
      rw [h.kept hage]
      exact ne_of_gt hw
  · rfl
  · split
    · rename_i hnone
      have hno := List.find?_eq_none.mp hnone (slotOf start) (List.mem_finRange _)
      simp [h.kept hage] at hno
    · rename_i i hi
      have hi' : (t.slots i).w = w := by simpa using List.find?_some hi
      obtain ⟨-, rfl⟩ := h.only i hi'
      simp [h.kept hage, hr]
  · split
    · rfl
    · rename_i i hi
      have hi' : (t.slots i).w = w := by simpa using List.find?_some hi
      exact absurd (h.only i hi').1 hage

end ApeShim.Epoll
