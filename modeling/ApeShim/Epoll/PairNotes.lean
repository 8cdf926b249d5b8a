import ApeShim.Epoll.Pairs

/-!
The representation of the pipe-pair table (`shim/epoll.c`): what its counter, its cursor and the
write hint say of it after any calls of the three creation hooks. The cursor is an `int` that only
grows, so 2^31 insertions overflow it, and a pair of one number with itself is put into two slots.
-/

namespace ApeShim.Epoll

/-! ## The calls -/

/-- A call of one of the hooks. -/
inductive Note
  | pipe (rfd wfd : Int)
  | pair (a b : Int)
  | newFd (fd : Int)
  deriving DecidableEq, Repr

namespace Note

def record (t : PairTable) : Note → Option PairTable
  | .pipe rfd wfd => notePipe t rfd wfd
  | .pair a b => notePair t a b
  | .newFd fd => some (noteNewFd t fd)

/-- Every number is one the host can give out. -/
def nonneg : Note → Bool
  | .pipe a b | .pair a b => 0 ≤ a && 0 ≤ b
  | .newFd fd => 0 ≤ fd

/-- The insertions of the call. -/
def inserts : Note → Nat
  | .pipe rfd wfd => if rfd < 0 ∨ wfd ≤ 0 then 0 else 1
  | .pair a b => if a < 0 ∨ b < 0 then 0 else (if 0 < b then 1 else 0) + if 0 < a then 1 else 0
  | .newFd _ => 0

/-- Both ends are one number, and it can be stored as a write end. -/
def twice : Note → Bool
  | .pair a b => a = b && 0 < a
  | _ => false

end Note

/-- The calls one after the other; `none` from where the cursor overflows. -/
def PairTable.runNotes (t : PairTable) (notes : List Note) : Option PairTable :=
  notes.foldlM Note.record t

/-- `g_pairs_next % SHIM_PIPE_PAIRS` of the machine: the counter wraps, and the remainder has its
sign. -/
def indexOf (next : Nat) : Int := Int.tmod (Int.bmod next (2 ^ 32)) 32

/-! ## The representation -/

/-- No write end is in two slots. -/
def PairTable.Apart (t : PairTable) : Prop :=
  ∀ i j, (t.slots i).w ≠ 0 → (t.slots i).w = (t.slots j).w → i = j

structure PairTable.Sound (t : PairTable) : Prop where
  /-- `g_pairs_live` counts the slots with a write end -/
  live : t.Exact
  apart : t.Apart
  /-- the indexes used so far are those of slots -/
  index : ∀ k < t.next, indexOf k = (slotOf k : Nat)
  /-- the hint finds the partner of a recorded write end -/
  hint : ∀ i, (t.slots i).w ≠ 0 → hintPipeWrite t (t.slots i).w = some (t.slots i).r
  /-- and none for any other number -/
  silent : ∀ w, t.Silent w → hintPipeWrite t w = none

/-- What every call keeps. -/
structure PairTable.Kept (t : PairTable) : Prop where
  live : t.Exact
  apart : t.Apart
  ends : ∀ i, 0 ≤ (t.slots i).r ∧ 0 ≤ (t.slots i).w

theorem indexOf_eq {k : Nat} (h : k < 2 ^ 31) : indexOf k = (slotOf k : Nat) := by
  have hwrap : Int.bmod k (2 ^ 32) = k := by
    rw [Int.bmod_eq_of_le]
    all_goals omega
  have hrem : Int.tmod (k : Int) 32 = (k % 32 : Nat) := by
    rw [Int.tmod_eq_emod_of_nonneg (by omega)]
    omega
  unfold indexOf
  rw [hwrap, hrem]
  simp only [slotOf, pipePairs]

/-! ## The slots -/

section Slots

variable {t t' : PairTable}

theorem kept_empty : PairTable.empty.Kept where
  live := by simp [PairTable.Exact, PairTable.empty]
  apart i j hw := absurd rfl hw
  ends i := ⟨Int.le_refl 0, Int.le_refl 0⟩

theorem PairTable.Kept.drop (h : t.Kept) (fd : Int) : (pairsDropLocked t fd).Kept where
  live := exact_drop h.live fd
  apart := by
    intro i j hw heq
    simp only [pairsDropLocked] at hw heq
    split_ifs at hw heq with hi hj
    · exact absurd rfl hw
    · exact absurd rfl hw
    · exact absurd heq hw
    · exact h.apart i j hw heq
  ends := by
    intro i
    simp only [pairsDropLocked]
    split
    · exact ⟨Int.le_refl 0, Int.le_refl 0⟩
    · exact h.ends i

theorem PairTable.Kept.insert (h : t.Kept) {rfd wfd : Int} (hs : t.Silent wfd)
    (hi : pairsInsertLocked t rfd wfd = some t') : t'.Kept := by
  have hlive := exact_insert h.live hi
  unfold pairsInsertLocked at hi
  split at hi
  · cases hi; exact h
  rename_i hvalid
  split at hi <;> cases hi
  refine ⟨hlive, fun i j hw heq => ?_, fun i => ?_⟩
  · simp only [Function.update_apply] at hw heq
    split_ifs at hw heq with hi hj hj
    · rw [hi, hj]
    · exact absurd heq.symm (hs j)
    · exact absurd heq (hs i)
    · exact h.apart i j hw heq
  · simp only [Function.update_apply]
    split
    · dsimp only
      omega
    · exact h.ends i

theorem insert_of_nonpos {rfd wfd : Int} (hw : wfd ≤ 0)
    (hi : pairsInsertLocked t rfd wfd = some t') : t' = t := by
  rw [pairsInsertLocked, if_pos (Or.inr hw)] at hi
  exact (Option.some.inj hi).symm

/-- A number that was dropped is no write end, and 0 is never stored as one. -/
theorem PairTable.Kept.insert_dropped (h : t.Kept) {rfd wfd : Int} (hs : 0 < wfd → t.Silent wfd)
    (hi : pairsInsertLocked t rfd wfd = some t') : t'.Kept := by
  by_cases hw : 0 < wfd
  · exact h.insert (hs hw) hi
  · rw [insert_of_nonpos (not_lt.mp hw) hi]
    exact h

theorem PairTable.Kept.sound (h : t.Kept) (hn : t.next ≤ 2 ^ 31) : t.Sound where
  live := h.live
  apart := h.apart
  index k hk := indexOf_eq (Nat.lt_of_lt_of_le hk hn)
  hint := by
    intro i hw
    have hlive := h.live.live_ne_zero hw
    have hends := h.ends i
    have hskip : ¬ ((t.slots i).w ≤ 0 ∨ t.live = 0) := by omega
    rw [hintPipeWrite, if_neg hskip]
    split
    · rename_i hnone
      have hno := List.find?_eq_none.mp hnone i (List.mem_finRange i)
      simp at hno
    · rename_i j hj
      have hj' : (t.slots j).w = (t.slots i).w := by simpa using List.find?_some hj
      obtain rfl := h.apart i j hw hj'.symm
      exact if_pos hends.1
  silent := by
    intro w hs
    rw [hintPipeWrite]
    split
    · rfl
    · have hnone : (List.finRange pipePairs).find? (fun i => (t.slots i).w = w) = none := by
        rw [List.find?_eq_none]
        intro i _
        simpa using hs i
      rw [hnone]

end Slots

/-! ## One call -/

section Call

variable {t t' : PairTable} {n : Note}

theorem notePipe_of_valid {rfd wfd : Int} (h : ¬ (rfd < 0 ∨ wfd < 0)) : notePipe t rfd wfd =
    pairsInsertLocked (pairsDropLocked (pairsDropLocked t rfd) wfd) rfd wfd := if_neg h

theorem notePair_of_valid {a b : Int} (h : ¬ (a < 0 ∨ b < 0)) : notePair t a b =
    (pairsInsertLocked (pairsDropLocked (pairsDropLocked t a) b) a b).bind fun t₁ =>
      pairsInsertLocked t₁ b a := if_neg h

theorem Note.record_next (h : n.record t = some t') : t'.next = t.next + n.inserts := by
  cases n with
  | pipe rfd wfd =>
    by_cases hv : rfd < 0 ∨ wfd < 0
    · rw [record, notePipe, if_pos hv] at h
      cases h
      rw [inserts, if_pos (by omega)]
      rfl
    · rw [record, notePipe_of_valid hv] at h
      rw [insert_next (by omega) h, inserts]
      simp only [pairsDropLocked]
      split <;> split <;> omega
  | pair a b =>
    by_cases hv : a < 0 ∨ b < 0
    · rw [record, notePair, if_pos hv] at h
      cases h
      rw [inserts, if_pos hv]
      rfl
    · rw [record, notePair_of_valid hv] at h
      rw [insertBoth_next (by omega) (by omega) h, inserts, if_neg hv]
      rfl
  | newFd fd =>
    simp only [record, noteNewFd, Option.some.injEq] at h
    subst h
    split <;> rfl

theorem Note.record_defined (n : Note) (hn : t.next < 2 ^ 31) :
    (∃ t', n.record t = some t') ↔ t.next + n.inserts < 2 ^ 31 := by
  cases n with
  | pipe rfd wfd =>
    by_cases hv : rfd < 0 ∨ wfd < 0
    · rw [record, notePipe, if_pos hv, inserts, if_pos (by omega)]
      simpa using hn
    · have hdef := @insert_defined (pairsDropLocked (pairsDropLocked t rfd) wfd) rfd wfd
        (by omega) hn
      rw [record, notePipe_of_valid hv, hdef, inserts]
      simp only [pairsDropLocked]
      split <;> split <;> omega
  | pair a b =>
    by_cases hv : a < 0 ∨ b < 0
    · rw [record, notePair, if_pos hv, inserts, if_pos hv]
      simpa using hn
    · have hdef := @insertBoth_defined (pairsDropLocked (pairsDropLocked t a) b) a b
        (by omega) (by omega) hn
      rw [record, notePair_of_valid hv, hdef, inserts, if_neg hv]
      rfl
  | newFd fd => simpa [record, inserts] using hn

theorem Note.record_kept (h : t.Kept) (hne : n.twice = false) (hr : n.record t = some t') :
    t'.Kept := by
  cases n with
  | pipe rfd wfd =>
    by_cases hv : rfd < 0 ∨ wfd < 0
    · rw [record, notePipe, if_pos hv] at hr
      cases hr
      exact h
    · rw [record, notePipe_of_valid hv] at hr
      exact ((h.drop rfd).drop wfd).insert_dropped silent_drop hr
  | pair a b =>
    by_cases hv : a < 0 ∨ b < 0
    · rw [record, notePair, if_pos hv] at hr
      cases hr
      exact h
    · rw [record, notePair_of_valid hv] at hr
      obtain ⟨t₁, h₁, h₂⟩ := Option.bind_eq_some_iff.mp hr
      have hfirst := ((h.drop a).drop b).insert_dropped silent_drop h₁
      refine hfirst.insert_dropped (fun ha => ?_) h₂
      -- the first insertion wrote to the other end
      have hab : b ≠ a := by
        rintro rfl
        simp [twice, ha] at hne
      exact ((silent_drop ha).drop ha b).insert hab h₁
  | newFd fd =>
    simp only [record, noteNewFd, Option.some.injEq] at hr
    subst hr
    split
    · exact h
    · exact h.drop fd

/-- The two insertions of such a pair go to two slots. -/
theorem Note.record_twice (ht : n.twice = true) (hr : n.record t = some t') : ¬ t'.Apart := by
  cases n with
  | pair a b =>
    simp only [twice, Bool.and_eq_true, decide_eq_true_eq] at ht
    obtain ⟨rfl, ha⟩ := ht
    rw [record, notePair_of_valid (by omega)] at hr
    obtain ⟨t₁, h₁, h₂⟩ := Option.bind_eq_some_iff.mp hr
    have hnext := insert_next (Int.le_of_lt ha) h₁
    rw [if_pos ha] at hnext
    have hput : ∀ {s s' : PairTable}, pairsInsertLocked s a a = some s' →
        s'.slots = Function.update s.slots (slotOf s.next) ⟨a, a⟩ := by
      intro s s' hs
      rw [pairsInsertLocked, if_neg (by omega)] at hs
      split at hs <;> cases hs
      rfl
    have hslot : slotOf t₁.next ≠ slotOf (pairsDropLocked (pairsDropLocked t a) a).next := by
      rw [hnext]
      exact @slotOf_ne _ 0 (by decide)
    intro hap
    refine hslot (hap _ _ ?_ ?_)
    · rw [hput h₂, Function.update_self]
      exact ne_of_gt ha
    · rw [hput h₂, Function.update_self, Function.update_of_ne hslot.symm, hput h₁,
        Function.update_self]
  | _ => cases ht

end Call

/-! ## Any number of calls -/

theorem runNotes_cons (t : PairTable) (n : Note) (notes : List Note) :
    t.runNotes (n :: notes) = (n.record t).bind fun t' => t'.runNotes notes := rfl

theorem runNotes_append (t : PairTable) (l m : List Note) :
    t.runNotes (l ++ m) = (t.runNotes l).bind fun t' => t'.runNotes m :=
  List.foldlM_append

/-- The cursor has counted every insertion. -/
theorem runNotes_next {notes : List Note} {t t' : PairTable} (h : t.runNotes notes = some t') :
    t'.next = t.next + (notes.map Note.inserts).sum := by
  induction notes generalizing t with
  | nil =>
    cases h
    rfl
  | cons n notes ih =>
    obtain ⟨t₁, h₁, h₂⟩ := Option.bind_eq_some_iff.mp h
    rw [ih h₂, Note.record_next h₁, List.map_cons, List.sum_cons, Nat.add_assoc]

theorem runNotes_defined {notes : List Note} {t : PairTable} (hn : t.next < 2 ^ 31) :
    (∃ t', t.runNotes notes = some t') ↔ t.next + (notes.map Note.inserts).sum < 2 ^ 31 := by
  induction notes generalizing t with
  | nil => exact ⟨fun _ => hn, fun _ => ⟨t, rfl⟩⟩
  | cons n notes ih =>
    rw [runNotes_cons, List.map_cons, List.sum_cons]
    constructor
    · rintro ⟨t', h⟩
      obtain ⟨t₁, h₁, h₂⟩ := Option.bind_eq_some_iff.mp h
      have hnext := Note.record_next h₁
      have hlt := (n.record_defined hn).mp ⟨t₁, h₁⟩
      have hrest := (ih (by omega)).mp ⟨t', h₂⟩
      omega
    · intro h
      obtain ⟨t₁, h₁⟩ := (n.record_defined hn).mpr (by omega)
      have hnext := Note.record_next h₁
      obtain ⟨t', h₂⟩ := (ih (t := t₁) (by omega)).mpr (by omega)
      exact ⟨t', Option.bind_eq_some_iff.mpr ⟨t₁, h₁, h₂⟩⟩

theorem runNotes_kept {notes : List Note} {t t' : PairTable} (h : t.Kept)
    (hne : ∀ n ∈ notes, n.twice = false) (hr : t.runNotes notes = some t') : t'.Kept := by
  induction notes generalizing t with
  | nil =>
    cases hr
    exact h
  | cons n notes ih =>
    obtain ⟨t₁, h₁, h₂⟩ := Option.bind_eq_some_iff.mp hr
    rw [List.forall_mem_cons] at hne
    exact ih (Note.record_kept h hne.1 h₁) hne.2 h₂

/-- **The pipe-pair table.** It is sound after every call exactly if fewer than 2^31 pairs are
inserted and no number is paired with itself. -/
theorem pair_table_sound_iff (notes : List Note) :
    (∀ done, done <+: notes → ∃ t, PairTable.empty.runNotes done = some t ∧ t.Sound) ↔
      (notes.map Note.inserts).sum < 2 ^ 31 ∧ ∀ n ∈ notes, n.twice = false := by
  constructor
  · intro h
    refine ⟨?_, fun n hn => ?_⟩
    · obtain ⟨t, ht, -⟩ := h notes (List.prefix_refl _)
      have hlt := (runNotes_defined (t := PairTable.empty) (by decide)).mp ⟨t, ht⟩
      rwa [show PairTable.empty.next = 0 from rfl, Nat.zero_add] at hlt
    · obtain ⟨l, m, rfl⟩ := List.append_of_mem hn
      obtain ⟨t', ht', hsound⟩ := h (l ++ [n]) ⟨m, by simp⟩
      rw [runNotes_append] at ht'
      obtain ⟨t, -, hrec⟩ := Option.bind_eq_some_iff.mp ht'
      rw [runNotes_cons] at hrec
      obtain ⟨t₁, h₁, h₂⟩ := Option.bind_eq_some_iff.mp hrec
      cases h₂
      by_contra htwice
      exact Note.record_twice (Bool.eq_true_of_not_eq_false htwice) h₁ hsound.apart
  · rintro ⟨hlt, hne⟩ done ⟨rest, rfl⟩
    rw [List.map_append, List.sum_append] at hlt
    obtain ⟨t, ht⟩ := (@runNotes_defined done PairTable.empty (by decide)).mpr
      (by rw [show PairTable.empty.next = 0 from rfl]; omega)
    have hnext := runNotes_next ht
    rw [show PairTable.empty.next = 0 from rfl] at hnext
    have hkept := runNotes_kept kept_empty (fun n hn => hne n (List.mem_append_left _ hn)) ht
    exact ⟨t, ht, hkept.sound (by omega)⟩

/-- A program that makes its pipes on the same two numbers 2^31 times: the cursor overflows, and
from then on it points in front of the table. -/
theorem pair_table_overflows :
    (∀ n ∈ List.replicate (2 ^ 31) (Note.pipe 3 4), n.nonneg = true) ∧
      PairTable.empty.runNotes (List.replicate (2 ^ 31) (.pipe 3 4)) = none ∧
      indexOf (2 ^ 31 + 1) = -31 := by
  refine ⟨fun n hn => ?_, ?_, by decide⟩
  · rw [List.eq_of_mem_replicate hn]
    decide
  · have hsum : ((List.replicate (2 ^ 31) (Note.pipe 3 4)).map Note.inserts).sum = 2 ^ 31 := by
      rw [List.map_replicate, List.sum_replicate]
      rfl
    have hundef := mt (runNotes_defined (t := PairTable.empty) (by decide)).mp
      (show ¬ PairTable.empty.next + _ < 2 ^ 31 by
        rw [hsum]
        decide)
    exact Option.eq_none_iff_forall_ne_some.mpr fun t ht => hundef ⟨t, ht⟩

end ApeShim.Epoll
