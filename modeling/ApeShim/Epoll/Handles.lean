import ApeShim.Lib.Machine
import ApeShim.Epoll.Interest

/-!
Which descriptors name an emulated epoll set (`shim/epoll.c`): `epoll_create1`
with `forget_fd` and its reclaiming loop, `note_dup` behind the two duplicating
fcntl commands, and closes and openings the shim does not see. A set's own pipe
is known to the model by an index, so that "the descriptor `epoll_wait` polls is
the set's wake pipe" can be said.
-/

namespace ApeShim.Epoll
open Keyed Trace

/-- `SHIM_EPOLL_MAX_HANDLES`. -/
def maxHandles : Nat := 8

/-- An open file: an end of the n-th epoll pipe, or something else. -/
inductive File
  | reader (pipe : Nat)
  | writer (pipe : Nat)
  | other (id : Nat)
  deriving DecidableEq, Repr

/-- The part of `struct shim_epoll_set` that names descriptors: `handles[0 ..
nhandles)`, `waker`, and which pipe was made for the set. -/
structure EpollSet where
  handles : List Int
  waker : Int
  pipe : Nat
  deriving DecidableEq, Repr

abbrev SetTable := Fin maxSets → Option EpollSet

/-! ## Finding, duplicating, forgetting -/

def setByHandle (sets : SetTable) (fd : Int) : Option (Fin maxSets) :=
  (List.finRange maxSets).find? fun i => (sets i).any fun s => fd ∈ s.handles

def noteDup (sets : SetTable) (oldfd newfd : Int) : SetTable :=
  if oldfd = newfd then sets
  else
    match setByHandle sets oldfd with
    | none => sets
    | some i =>
        match sets i with
        | none => sets
        | some s =>
            if setByHandle sets newfd = none ∧ s.handles.length < maxHandles then
              Function.update sets i (some { s with handles := s.handles ++ [newfd] })
            else sets

/-- The loop of `forget_fd` over one handle list, from position `h`: the last
handle moves into the hole and the same position is looked at again. -/
def forgetLoop (fd : Int) : Nat → Nat → List Int → List Int
  | 0, _, l => l
  | fuel + 1, h, l =>
      match l[h]? with
      | none => l
      | some x =>
          if x = fd then forgetLoop fd fuel h (swapOut l h) else forgetLoop fd fuel (h + 1) l

def forgetHandles (fd : Int) (l : List Int) : List Int := forgetLoop fd l.length 0 l

/-- A set whose last handle goes is retired. -/
def forgetSet (fd : Int) (s : EpollSet) : Option EpollSet :=
  if fd ∈ s.handles ∧ forgetHandles fd s.handles = [] then none
  else some { s with handles := forgetHandles fd s.handles }

def forgetFd (fd : Int) (sets : SetTable) : SetTable := fun i => (sets i).bind (forgetSet fd)

/-- Sets whose handles are all closed. `files` answers `fcntl(F_GETFD)`. -/
def reclaim (files : Int → Option File) (sets : SetTable) : SetTable := fun i =>
  (sets i).bind fun s => if s.handles.any fun h => (files h).isSome then some s else none

/-- The wakers handed back to be closed when `before` became `after`. -/
def retired (before after : SetTable) : List Int :=
  (List.finRange maxSets).filterMap fun i =>
    if after i = none then (before i).map EpollSet.waker else none

/-- What `emu_create1` does to the sets under the lock before it looks for a
free slot, with the wakers to close after it. -/
def sweep (files : Int → Option File) (p0 p1 : Int) (sets : SetTable) : SetTable × List Int :=
  let sets₁ := forgetFd p0 sets
  let sets₂ := forgetFd p1 sets₁
  let sets₃ := reclaim files sets₂
  (sets₃, retired sets sets₁ ++ retired sets₁ sets₂ ++ retired sets₂ sets₃)

def closeAll (files : Int → Option File) (l : List Int) : Int → Option File :=
  fun fd => if fd ∈ l then none else files fd

/-! ## The machine -/

structure Handles where
  sets : SetTable
  files : Int → Option File
  /-- epoll pipes made so far -/
  pipes : Nat

inductive HandleLabel
  /-- `epoll_create1`, whose `pipe` got these two numbers -/
  | create1 (p0 p1 : Int)
  /-- F_DUPFD or F_DUPFD_CLOEXEC -/
  | dup (oldfd newfd : Int)
  | closed (fd : Int)
  /-- an unrelated file takes the number -/
  | opened (fd : Int) (id : Nat)
  deriving DecidableEq

namespace Handles

def init : Handles := ⟨fun _ => none, fun _ => none, 0⟩

/-- `emu_create1` after `pipe` succeeded: EMFILE where no slot is free. -/
def create1 (s : Handles) (p0 p1 : Int) : Handles :=
  let files := Function.update (Function.update s.files p0 (some (.reader s.pipes))) p1
    (some (.writer s.pipes))
  let r := sweep files p0 p1 s.sets
  match (List.finRange maxSets).find? fun i => r.1 i = none with
  | none => ⟨r.1, closeAll files (r.2 ++ [p0, p1]), s.pipes + 1⟩
  | some i => ⟨Function.update r.1 i (some ⟨[p0], p1, s.pipes⟩), closeAll files r.2, s.pipes + 1⟩

/-- The host gives out only numbers that are not open. -/
def step (s : Handles) : HandleLabel → Option (Handles × List Empty)
  | .create1 p0 p1 =>
      if p0 ≠ p1 ∧ s.files p0 = none ∧ s.files p1 = none then some (s.create1 p0 p1, []) else none
  | .dup oldfd newfd =>
      if (s.files oldfd).isSome ∧ s.files newfd = none then
        some (⟨noteDup s.sets oldfd newfd, Function.update s.files newfd (s.files oldfd), s.pipes⟩, [])
      else none
  | .closed fd => some ({ s with files := Function.update s.files fd none }, [])
  | .opened fd id =>
      if s.files fd = none then
        some ({ s with files := Function.update s.files fd (some (.other id)) }, [])
      else none

end Handles

def handleMachine : Machine Handles HandleLabel Empty := ⟨Handles.init, Handles.step⟩

/-! ## What is claimed of the handle lists -/

/-- In use, the lists are disjoint and hold 1 to 8 numbers, the wakers differ,
no step frees a set whose pipe has an open read end, and where a recorded number
is open, so that an `epoll_wait` can come in, `handles[0]` is an open descriptor
of the set's own pipe. -/
structure HandlesSound (s : Handles) : Prop where
  disjoint : ∀ i j a b, s.sets i = some a → s.sets j = some b → i ≠ j →
    ∀ fd ∈ a.handles, fd ∉ b.handles
  size : ∀ i a, s.sets i = some a → 1 ≤ a.handles.length ∧ a.handles.length ≤ maxHandles
  wakers : ∀ i j a b, s.sets i = some a → s.sets j = some b → i ≠ j → a.waker ≠ b.waker
  freed : ∀ l s' out, s.step l = some (s', out) → ∀ i a, s.sets i = some a →
    (∀ b, s'.sets i = some b → b.pipe ≠ a.pipe) → ∀ fd, s.files fd ≠ some (.reader a.pipe)
  own : ∀ i a, s.sets i = some a → ∀ fd ∈ a.handles, s.files fd ≠ none →
    ∃ h, a.handles.head? = some h ∧ s.files h = some (.reader a.pipe)

/-- `handles[0]` is closed only when no other handle of its set is open, wakers
are not closed, no unrelated file lands on a recorded number, and a duplicate is
recorded: there is room for it, or its number is listed for the same set. -/
def Orderly (s : Handles) : HandleLabel → Prop
  | .create1 _ _ => True
  | .closed fd => ∀ i, ∀ a ∈ s.sets i, a.waker ≠ fd ∧
      (a.handles.head? = some fd → ∀ h ∈ a.handles, h ≠ fd → s.files h = none)
  | .opened fd _ => setByHandle s.sets fd = none
  | .dup oldfd newfd => setByHandle s.sets newfd = setByHandle s.sets oldfd ∨
      (setByHandle s.sets newfd = none ∧
        ∀ i ∈ setByHandle s.sets oldfd, ∀ a ∈ s.sets i, a.handles.length < maxHandles)

instance (s : Handles) : (l : HandleLabel) → Decidable (Orderly s l)
  | .create1 _ _ => inferInstanceAs (Decidable True)
  | .closed fd => inferInstanceAs (Decidable (∀ i, ∀ a ∈ s.sets i, a.waker ≠ fd ∧
      (a.handles.head? = some fd → ∀ h ∈ a.handles, h ≠ fd → s.files h = none)))
  | .opened fd _ => inferInstanceAs (Decidable (setByHandle s.sets fd = none))
  | .dup oldfd newfd => inferInstanceAs
      (Decidable (setByHandle s.sets newfd = setByHandle s.sets oldfd ∨
        (setByHandle s.sets newfd = none ∧
          ∀ i ∈ setByHandle s.sets oldfd, ∀ a ∈ s.sets i, a.handles.length < maxHandles)))

/-! ## Forgetting a number -/

theorem forgetLoop_absent {fd : Int} {l : List Int} (h : fd ∉ l) (fuel : Nat) :
    ∀ i, forgetLoop fd fuel i l = l := by
  induction fuel with
  | zero => intro i; rfl
  | succ fuel ih =>
    intro i
    simp only [forgetLoop]
    split
    · rfl
    · rename_i x hx
      rw [if_neg]
      · exact ih (i + 1)
      · rintro rfl
        exact h (List.mem_of_getElem? hx)

/-- In a list without repetition the loop swaps out the one hit. -/
theorem forgetLoop_eq {fd : Int} {l : List Int} (hn : l.Nodup) (fuel : Nat) :
    ∀ i, l.length ≤ fuel + i → i ≤ l.idxOf fd →
      forgetLoop fd fuel i l = if fd ∈ l then swapOut l (l.idxOf fd) else l := by
  induction fuel with
  | zero =>
    intro i hlen hi
    have hout : fd ∉ l := by
      intro hm
      have := List.idxOf_lt_length_of_mem hm
      omega
    simp [forgetLoop, hout]
  | succ fuel ih =>
    intro i hlen hi
    simp only [forgetLoop]
    split
    · rename_i hnone
      have hlen' := List.getElem?_eq_none_iff.mp hnone
      have hout : fd ∉ l := by
        intro hm
        have := List.idxOf_lt_length_of_mem hm
        omega
      simp [hout]
    · rename_i x hx
      obtain ⟨hlt, hget⟩ := List.getElem?_eq_some_iff.mp hx
      split
      · rename_i hfd
        subst hfd
        have hmem : x ∈ l := List.mem_of_getElem? hx
        have hidx : l.idxOf x = i := by
          rw [← hget]
          exact hn.idxOf_getElem i hlt
        rw [if_pos hmem, hidx]
        refine forgetLoop_absent ?_ fuel i
        rw [← hidx, mem_swapOut_idxOf hn hmem]
        simp
      · rename_i hfd
        refine ih (i + 1) (by omega) (Nat.lt_of_le_of_ne hi fun heq => hfd ?_)
        have hlt' : l.idxOf fd < l.length := heq ▸ hlt
        have hat := List.getElem_idxOf hlt'
        rw [← hget, ← hat]
        congr 1

theorem forgetHandles_eq {fd : Int} {l : List Int} (hn : l.Nodup) :
    forgetHandles fd l = if fd ∈ l then swapOut l (l.idxOf fd) else l :=
  forgetLoop_eq hn l.length 0 (by omega) (by omega)

/-- What is left of `a` when the numbers in `gone` are forgotten. -/
structure Trimmed (gone : Int → Prop) (a b : EpollSet) : Prop where
  waker : b.waker = a.waker
  pipe : b.pipe = a.pipe
  mem : ∀ x, x ∈ b.handles ↔ x ∈ a.handles ∧ ¬ gone x
  nodup : b.handles.Nodup
  length_le : b.handles.length ≤ a.handles.length
  head : ∀ h, a.handles.head? = some h → ¬ gone h → b.handles.head? = some h

theorem Trimmed.trans {g g' : Int → Prop} {a b c : EpollSet} (h : Trimmed g a b)
    (h' : Trimmed g' b c) : Trimmed (fun x => g x ∨ g' x) a c where
  waker := h'.waker.trans h.waker
  pipe := h'.pipe.trans h.pipe
  mem x := by rw [h'.mem, h.mem, not_or, and_assoc]
  nodup := h'.nodup
  length_le := h'.length_le.trans h.length_le
  head x hx hg := h'.head x (h.head x hx fun hgx => hg (Or.inl hgx)) fun hgx => hg (Or.inr hgx)

theorem forgetSet_some {fd : Int} {a b : EpollSet} (hn : a.handles.Nodup)
    (h : forgetSet fd a = some b) : Trimmed (fun x => x = fd) a b := by
  unfold forgetSet at h
  split at h
  · cases h
  · cases h
    rw [forgetHandles_eq hn]
    by_cases hm : fd ∈ a.handles
    · have hlt := List.idxOf_lt_length_of_mem hm
      simp only [hm, ↓reduceIte]
      refine ⟨rfl, rfl, fun x => mem_swapOut_idxOf hn hm, nodup_swapOut hn hlt,
        length_swapOut_le hlt, fun h hh hne => ?_⟩
      dsimp only
      rw [head?_swapOut _ hlt]
      · exact hh
      · -- `fd` is not the first handle
        cases hl : a.handles with
        | nil => rw [hl] at hh; cases hh
        | cons y l =>
          rw [hl] at hh
          cases hh
          rw [List.idxOf_cons_ne l hne]
          omega
    · simp only [hm, ↓reduceIte]
      refine ⟨rfl, rfl, fun x => ?_, hn, le_refl _, fun h hh _ => hh⟩
      constructor
      · exact fun hx => ⟨hx, fun he => hm (he ▸ hx)⟩
      · exact fun hx => hx.1

theorem forgetSet_none {fd : Int} {a : EpollSet} (hn : a.handles.Nodup)
    (h : forgetSet fd a = none) : ∀ x ∈ a.handles, x = fd := by
  unfold forgetSet at h
  split at h
  · rename_i hg
    rw [forgetHandles_eq hn, if_pos hg.1] at hg
    intro x hx
    by_contra hne
    have := (mem_swapOut_idxOf hn hg.1).mpr ⟨hx, hne⟩
    rw [hg.2] at this
    simp at this
  · cases h

theorem setByHandle_some {sets : SetTable} {fd : Int} {i : Fin maxSets}
    (h : setByHandle sets fd = some i) : ∃ a, sets i = some a ∧ fd ∈ a.handles := by
  have hany := List.find?_some h
  cases hs : sets i with
  | none => simp [hs] at hany
  | some a => exact ⟨a, rfl, by simpa [hs] using hany⟩

theorem setByHandle_none {sets : SetTable} {fd : Int} :
    setByHandle sets fd = none ↔ ∀ i a, sets i = some a → fd ∉ a.handles := by
  simp only [setByHandle, List.find?_eq_none, List.mem_finRange, forall_const]
  constructor
  · intro h i a ha hm
    exact h i (by simp [ha, hm])
  · intro h i hany
    cases hs : sets i with
    | none => simp [hs] at hany
    | some a => exact h i a hs (by simpa [hs] using hany)

/-! ## The sweep of `epoll_create1` -/

theorem mem_retired {before after : SetTable} {w : Int} :
    w ∈ retired before after ↔ ∃ i a, before i = some a ∧ after i = none ∧ a.waker = w := by
  simp only [retired, List.mem_filterMap, List.mem_finRange, true_and]
  constructor
  · rintro ⟨i, hi⟩
    split at hi
    · obtain ⟨a, ha, hw⟩ := Option.map_eq_some_iff.mp hi
      exact ⟨i, a, ha, ‹_›, hw⟩
    · cases hi
  · rintro ⟨i, a, ha, hn, hw⟩
    exact ⟨i, by simp [hn, ha, hw]⟩

theorem forgetSet_waker {fd : Int} {a b : EpollSet} (h : forgetSet fd a = some b) :
    b.waker = a.waker := by
  unfold forgetSet at h
  split at h <;> cases h
  rfl

section Sweep

variable {files : Int → Option File} {p0 p1 : Int} {sets : SetTable}

/-- The sets that stay have lost the two new numbers, and some handle of theirs
is open. -/
theorem sweep_kept (hn : ∀ i a, sets i = some a → a.handles.Nodup) {i : Fin maxSets} {b : EpollSet}
    (h : (sweep files p0 p1 sets).1 i = some b) :
    ∃ a, sets i = some a ∧ Trimmed (fun x => x = p0 ∨ x = p1) a b ∧
      ∃ x ∈ b.handles, files x ≠ none := by
  obtain ⟨b', hb', halive⟩ := Option.bind_eq_some_iff.mp h
  split at halive
  · rename_i hany
    cases halive
    obtain ⟨a₁, h₁, hf₁⟩ := Option.bind_eq_some_iff.mp hb'
    obtain ⟨a, ha, hf₀⟩ := Option.bind_eq_some_iff.mp h₁
    have ht₀ := forgetSet_some (hn i a ha) hf₀
    have ht₁ := forgetSet_some ht₀.nodup hf₁
    obtain ⟨x, hx, hopen⟩ := List.any_eq_true.mp hany
    exact ⟨a, ha, ht₀.trans ht₁, x, hx, Option.isSome_iff_ne_none.mp hopen⟩
  · cases halive

/-- The sets that go have no handle left but the new numbers and closed ones. -/
theorem sweep_freed (hn : ∀ i a, sets i = some a → a.handles.Nodup) {i : Fin maxSets} {a : EpollSet}
    (ha : sets i = some a) (h : (sweep files p0 p1 sets).1 i = none) :
    ∀ x ∈ a.handles, x ≠ p0 → x ≠ p1 → files x = none := by
  intro x hx h0 h1
  have hna := hn i a ha
  simp only [sweep, reclaim, forgetFd, ha, Option.bind_some] at h
  cases h₁ : forgetSet p0 a with
  | none => exact absurd (forgetSet_none hna h₁ x hx) h0
  | some a₁ =>
    have ht₁ := forgetSet_some hna h₁
    have hx₁ := (ht₁.mem x).mpr ⟨hx, h0⟩
    simp only [h₁, Option.bind_some] at h
    cases h₂ : forgetSet p1 a₁ with
    | none => exact absurd (forgetSet_none ht₁.nodup h₂ x hx₁) h1
    | some a₂ =>
      have hx₂ := ((forgetSet_some ht₁.nodup h₂).mem x).mpr ⟨hx₁, h1⟩
      simp only [h₂, Option.bind_some, ite_eq_right_iff, reduceCtorEq, imp_false,
        List.any_eq_true, not_exists, not_and] at h
      simpa using h x hx₂

theorem sweep_closes {w : Int} (h : w ∈ (sweep files p0 p1 sets).2) :
    ∃ i a, sets i = some a ∧ (sweep files p0 p1 sets).1 i = none ∧ a.waker = w := by
  simp only [sweep, List.mem_append, mem_retired] at h
  rcases h with (⟨i, a, ha, hn, hw⟩ | ⟨i, a₁, ha₁, hn, hw⟩) | ⟨i, a₂, ha₂, hn, hw⟩
  · have hn' : forgetFd p1 (forgetFd p0 sets) i = none := by
      rw [forgetFd, hn]
      rfl
    exact ⟨i, a, ha, by simp [sweep, reclaim, hn'], hw⟩
  · obtain ⟨a, ha, hf⟩ := Option.bind_eq_some_iff.mp ha₁
    exact ⟨i, a, ha, by simp [sweep, reclaim, hn], forgetSet_waker hf ▸ hw⟩
  · obtain ⟨a₁, ha₁, hf₁⟩ := Option.bind_eq_some_iff.mp ha₂
    obtain ⟨a, ha, hf⟩ := Option.bind_eq_some_iff.mp ha₁
    exact ⟨i, a, ha, hn, by rw [← hw, forgetSet_waker hf₁, forgetSet_waker hf]⟩

end Sweep

end ApeShim.Epoll
