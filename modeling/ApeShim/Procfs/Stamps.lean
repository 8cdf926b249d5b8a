import ApeShim.Lib.Machine
import ApeShim.Procfs.Served

/-!
Content descriptors (`core/open.c`) under any number of threads. A step is one section
under the lock it takes, the taking of that lock, or the passing of time. The text is
made in one section under `pc_lock` and its stamp is read in a later one.
-/

namespace ApeShim.Procfs
open Trace

/-! ## The stamp -/

/-- The file of a process a node names, a thread's being the process's. -/
def Node.file (n : Node) : Option Text :=
  if n.rest = [] then some n.name else if n.name = "task".toList then lastOf n.rest else none

/-- Which volatile file of which process a path names. -/
def Host.volatileOf (h : Host) (path : Text) : Option (UInt32 × Nat) :=
  if path.take 6 ≠ "/proc/".toList then none
  else if (h.pcParse (path.drop 6)).kind ≠ .pidSub then none
  else (h.pcParse (path.drop 6)).file.bind fun file =>
    (pidVolatile.idxOf? file).map fun vi => ((h.pcParse (path.drop 6)).pid, vi)

/-- `pc_content_gen`. -/
def Host.pcContentGen (h : Host) (slots : Slots) (t : Int) (path : Text) : Slots × Int :=
  match h.volatileOf path with
  | none => (slots, 0)
  | some (pid, _) =>
      let (i, slots) := slotOf slots pid
      if (slots i).start = 0 then (slots, 0)
      else if pidDirMs ≤ t - (slots i).ms then (slots, 0)
      else (slots, (slots i).ms)

/-! ## Threads -/

/-- `struct memfd`, of a content file. -/
structure Memfd where
  lock : Option Nat := none
  text : Text
  pos : Nat := 0
  gen : Int
  vpath : Text

/-- Where a thread stands, by the section it is about to run. -/
inductive Phase
  | idle
  /-- `gen_vpath` of an open -/
  | openGen (path : Text)
  /-- `memfd_open`, with the text -/
  | openStamp (path text : Text)
  /-- the stamps are compared -/
  | seekCheck (fd : Nat)
  /-- `gen_vpath` of a rewind -/
  | seekGen (fd : Nat)
  /-- `pc_content_gen` of a rewind, with the text -/
  | seekStamp (fd : Nat) (path text : Text)
  /-- the text is swapped in -/
  | seekSwap (fd : Nat) (text : Text) (gen : Int)
  /-- the position is set -/
  | seekPos (fd pos : Nat)
  /-- so many bytes are read -/
  | reading (fd n : Nat)

/-- The section takes `pc_lock`, and not a descriptor's lock. -/
def Phase.wantsPc : Phase → Bool
  | .openGen _ | .openStamp .. | .seekCheck _ | .seekGen _ | .seekStamp .. => true
  | _ => false

def Phase.wantsFd : Phase → Option Nat
  | .seekSwap fd _ _ | .seekPos fd _ | .reading fd _ => some fd
  | _ => none

/-- `pc_busy` is set in the section. -/
def Phase.busy : Phase → Bool
  | .openGen _ | .seekGen _ => true
  | _ => false

structure StampState where
  clock : Int
  host : Host
  slots : Slots
  pcLock : Option Nat
  memfds : Nat → Option Memfd
  phase : Nat → Phase

inductive StampLabel
  /-- time passes, and processes with it -/
  | tick (t : Int) (h : Host)
  /-- any other use of the slots, under `pc_lock` -/
  | access (pid : UInt32) (op : Op)
  | callOpen (τ : Nat) (path : Text)
  /-- lseek(fd, 0, SEEK_SET) -/
  | rewind (τ fd : Nat)
  /-- any other lseek, to where it leads -/
  | seek (τ fd pos : Nat)
  | read (τ fd n : Nat)
  /-- the lock of the section is taken -/
  | lock (τ : Nat)
  /-- the section runs and the lock is dropped; a descriptor it opens is `fd` -/
  | run (τ fd : Nat)

namespace StampState

def goto (s : StampState) (τ : Nat) (p : Phase) : StampState :=
  { s with phase := Function.update s.phase τ p }

def busy (s : StampState) : Bool := s.pcLock.any fun τ => (s.phase τ).busy

/-- Behind a section under `pc_lock`. -/
def leave (s : StampState) (τ : Nat) (p : Phase) (slots : Slots) : StampState :=
  { s with slots, pcLock := none, phase := Function.update s.phase τ p }

/-- Behind a section under the lock of `fd`. -/
def leaveFd (s : StampState) (τ fd : Nat) (m : Memfd) : StampState :=
  { s with memfds := Function.update s.memfds fd (some { m with lock := none }),
           phase := Function.update s.phase τ .idle }

/-- `memfd_open`, where the number is free and there is memory. -/
def opened (s : StampState) (fd : Nat) (path text : Text) (gen : Int) : StampState :=
  match s.memfds fd with
  | none => { s with memfds := Function.update s.memfds fd (some { text, gen, vpath := path.take 199 }) }
  | some _ => s

/-- A section under `pc_lock`. -/
def runPc (s : StampState) (τ fd : Nat) : Option StampState :=
  match s.phase τ with
  | .openGen path =>
      match s.host.pcGenNode s.slots s.clock (s.host.pcParse (path.drop 5)) with
      | (slots, some text) => some (s.leave τ (.openStamp path text) slots)
      | (slots, none) => some (s.leave τ .idle slots)
  | .openStamp path text =>
      let (slots, gen) := s.host.pcContentGen s.slots s.clock path
      some ((s.opened fd path text gen).leave τ .idle slots)
  | .seekCheck fd =>
      match s.memfds fd with
      | none => none
      | some m =>
          let (slots, gen) := s.host.pcContentGen s.slots s.clock m.vpath
          some (s.leave τ (if m.gen = 0 ∨ m.gen ≠ gen then .seekGen fd else .seekPos fd 0) slots)
  | .seekGen fd =>
      match s.memfds fd with
      | none => none
      | some m =>
          match s.host.pcGenNode s.slots s.clock (s.host.pcParse (m.vpath.drop 5)) with
          | (slots, some text) => some (s.leave τ (.seekStamp fd m.vpath text) slots)
          | (slots, none) => some (s.leave τ (.seekPos fd 0) slots)
  | .seekStamp fd path text =>
      let (slots, gen) := s.host.pcContentGen s.slots s.clock path
      some (s.leave τ (.seekSwap fd text gen) slots)
  | _ => none

/-- A section under the lock of a descriptor. -/
def runFd (s : StampState) (τ : Nat) : Option StampState :=
  match s.phase τ with
  | .seekSwap fd text gen => (s.memfds fd).map fun m => s.leaveFd τ fd { m with text, gen, pos := 0 }
  | .seekPos fd pos => (s.memfds fd).map fun m => s.leaveFd τ fd { m with pos }
  | .reading fd n =>
      (s.memfds fd).map fun m => s.leaveFd τ fd { m with pos := max m.pos (min (m.pos + n) m.text.length) }
  | _ => none

/-- A call begins on an open descriptor. -/
def enter (s : StampState) (τ fd : Nat) (p : Phase) : Option StampState :=
  match s.phase τ with
  | .idle => if (s.memfds fd).isSome then some (s.goto τ p) else none
  | _ => none

def step (s : StampState) : StampLabel → Option (StampState × List Slots)
  | .tick t h =>
      if s.clock ≤ t ∧ h.getpid = s.host.getpid then some ({ s with clock := t, host := h }, []) else none
  | .access pid op =>
      if s.pcLock = none then
        let slots := op.apply s.host s.slots s.clock pid
        some ({ s with slots }, [slots])
      else none
  | .callOpen τ path =>
      match s.phase τ with
      | .idle =>
          if (procSub path).isSome ∧ s.busy = false then some (s.goto τ (.openGen path), []) else none
      | _ => none
  | .rewind τ fd => (s.enter τ fd (if s.busy then .seekPos fd 0 else .seekCheck fd)).map (·, [])
  | .seek τ fd pos => (s.enter τ fd (.seekPos fd pos)).map (·, [])
  | .read τ fd n => (s.enter τ fd (.reading fd n)).map (·, [])
  | .lock τ =>
      if (s.phase τ).wantsPc then
        if s.pcLock = none then some ({ s with pcLock := some τ }, []) else none
      else
        match (s.phase τ).wantsFd with
        | none => none
        | some fd =>
            match s.memfds fd with
            | some m =>
                if m.lock = none then
                  some ({ s with memfds := Function.update s.memfds fd (some { m with lock := some τ }) }, [])
                else none
            | none => none
  | .run τ fd =>
      if (s.phase τ).wantsPc then
        if s.pcLock = some τ then (s.runPc τ fd).map fun s' => (s', [s'.slots]) else none
      else
        match (s.phase τ).wantsFd with
        | none => none
        | some fd =>
            if (s.memfds fd).any (fun m => m.lock = some τ) then (s.runFd τ).map (·, []) else none

end StampState

/-- The descriptors of a process that starts on a host; each section on the slots is
observed by the table it leaves. -/
def stampMachine (clock : Int) (host : Host) : Machine StampState StampLabel Slots where
  init := ⟨clock, host, fun _ => {}, none, fun _ => none, fun _ => .idle⟩
  step := StampState.step

/-! ## What is claimed of a stamp -/

/-- Where the stamp is not zero, the text is one that the slot had in the generation of
that stamp. -/
def Stamped (h : Host) (log : List Slots) (vpath text : Text) (gen : Int) : Prop :=
  gen ≠ 0 → ∃ path pid vi, vpath = path.take 199 ∧ h.volatileOf path = some (pid, vi) ∧
    ∃ slots ∈ log, ∃ i, (slots i).pid = pid ∧ (slots i).ms = gen ∧ text = (slots i).vol.getD vi []

def Truthful (s : StampState) (log : List Slots) : Prop :=
  ∀ fd m, s.memfds fd = some m → Stamped s.host log m.vpath m.text m.gen

/-! ## The condition -/

/-- The path of a text that a thread has made and not stamped yet. -/
def Phase.unstamped : Phase → Option Text
  | .openStamp path _ | .seekStamp _ path _ => some path
  | _ => none

def Op.refreshes (op : Op) (h : Host) (pid : UInt32) : Bool :=
  match op with
  | .read name => h.slotted pid name
  | .ensure => true
  | .stamp => false

/-- The process whose slot the generation of a node refreshes. -/
def Host.genRefreshes (h : Host) (n : Node) : Option UInt32 :=
  if n.kind = .pidSub ∧ n.file.any (h.slotted n.pid) = true then some n.pid else none

/-- The process whose slot a step refreshes. -/
def StampState.refreshes (s : StampState) : StampLabel → Option UInt32
  | .access pid op => if op.refreshes s.host pid then some pid else none
  | .run τ _ =>
      match s.phase τ with
      | .openGen path => s.host.genRefreshes (s.host.pcParse (path.drop 5))
      | .seekGen fd => (s.memfds fd).bind fun m => s.host.genRefreshes (s.host.pcParse (m.vpath.drop 5))
      | _ => none
  | _ => none

/-- What `slot_of` hands out. -/
def cell (slots : Slots) (pid : UInt32) : PidSlot := (slotOf slots pid).2 (slotOf slots pid).1

/-- A refresh makes a new generation. -/
def Host.regenerates (h : Host) (slots : Slots) (t : Int) (pid : UInt32) : Prop :=
  h.alive pid = true ∧ (cell slots pid).fresh t = false

/-- No step makes a new generation of a process while a thread has an unstamped text of it. -/
def Undisturbed (s : StampState) (a : StampLabel) : Prop :=
  ∀ pid, s.refreshes a = some pid → s.host.regenerates s.slots s.clock pid →
    ∀ τ path vi, (s.phase τ).unstamped = some path → s.host.volatileOf path ≠ some (pid, vi)

/-! ## What a path names -/

theorem pcParse_congr {h h' : Host} (hg : h'.getpid = h.getpid) (sub : Text) :
    h'.pcParse sub = h.pcParse sub := by
  simp only [Host.pcParse, Host.parseRest, Host.selfPid, hg]

theorem volatileOf_congr {h h' : Host} (hg : h'.getpid = h.getpid) (path : Text) :
    h'.volatileOf path = h.volatileOf path := by
  simp only [Host.volatileOf, pcParse_congr hg]

/-- The generator and the stamp parse a path from different places. -/
theorem pcParse_proc (h : Host) {path : Text} (hp : path.take 6 = "/proc/".toList) :
    h.pcParse (path.drop 5) = h.pcParse (path.drop 6) := by
  have hpath : path = "/proc/".toList ++ path.drop 6 := by rw [← hp, List.take_append_drop]
  have hdrop : path.drop 5 = '/' :: path.drop 6 := by
    rw [hpath]
    rfl
  have hstrip : strip (path.drop 5) = strip (path.drop 6) := by
    rw [hdrop]
    rfl
  rw [Host.pcParse, Host.pcParse, hstrip]

/-! ## The slot of a process -/

/-- A slot in use is the one the probes find. -/
def Sole (slots : Slots) : Prop :=
  ∀ i, (slots i).start ≠ 0 → found slots (slots i).pid = some i

section Cells

variable {slots slots' : Slots} {pid q : UInt32} {i : Fin 2048} {s : PidSlot}

/-- A first match stays the first where matches are only taken away. -/
theorem find?_fewer {α : Type*} {l : List α} {f g : α → Bool} {a : α} (hf : l.find? f = some a)
    (hfg : ∀ x, g x = true → f x = true) (ha : g a = true) : l.find? g = some a := by
  induction l with
  | nil => cases hf
  | cons b l ih =>
    rw [List.find?_cons] at hf ⊢
    cases hb : f b with
    | true =>
      rw [hb] at hf
      obtain rfl := Option.some.inj hf
      rw [ha]
    | false =>
      rw [hb] at hf
      have hg : g b = false := by
        rw [Bool.eq_false_iff]
        intro hg
        rw [hfg b hg] at hb
        cases hb
      rw [hg]
      exact ih hf

/-- The slots of other processes are found where they were. -/
theorem found_other (hs : ∀ j, slots' j = slots j ∨ (slots' j).pid = q) (hq : q ≠ pid)
    (hf : found slots pid = some i) (hi : (slots' i).pid = pid) : found slots' pid = some i := by
  refine find?_fewer hf (fun j hj => ?_) (decide_eq_true hi)
  rw [decide_eq_true_eq] at hj ⊢
  rcases hs j with h | h
  · rw [← h]
    exact hj
  · exact absurd (h.symm.trans hj) hq

theorem found_pid (hf : found slots pid = some i) : (slots i).pid = pid := by
  have := List.find?_some hf
  simpa using this

/-- What `slot_of` leaves of the other slots. -/
theorem slotOf_others (slots : Slots) (q : UInt32) (j : Fin 2048) :
    (slotOf slots q).2 j = slots j ∨ ((slotOf slots q).2 j).pid = q := by
  rcases (slotOf_spec slots q).2 j with h | h
  · exact Or.inl h
  · exact Or.inr (by rw [h])

theorem Sole.slotOf (hs : Sole slots) (q : UInt32) : Sole (Procfs.slotOf slots q).2 := by
  cases hf : found slots q with
  | some i =>
    rw [slotOf_found hf]
    exact hs
  | none =>
    rw [slotOf_missing hf]
    intro j hj
    dsimp only at hj ⊢
    by_cases hjo : j = oldest slots q
    · rw [hjo, Function.update_self] at hj
      exact absurd rfl hj
    · rw [Function.update_of_ne hjo] at hj ⊢
      have hfound := hs j hj
      have hq : q ≠ (slots j).pid := by
        rintro rfl
        rw [hf] at hfound
        cases hfound
      refine found_other (fun k => ?_) hq hfound (by rw [Function.update_of_ne hjo])
      by_cases hk : k = oldest slots q
      · exact Or.inr (by rw [hk, Function.update_self])
      · exact Or.inl (Function.update_of_ne hk _ _)

theorem Sole.update (hs : Sole slots) (hf : found slots q = some i) (hq : s.pid = q) :
    Sole (Function.update slots i s) := by
  have hothers : ∀ k, Function.update slots i s k = slots k ∨ (Function.update slots i s k).pid = q := by
    intro k
    by_cases hk : k = i
    · exact Or.inr (by rw [hk, Function.update_self, hq])
    · exact Or.inl (Function.update_of_ne hk _ _)
  intro j hj
  by_cases hji : j = i
  · rw [hji, Function.update_self, hq, found, ← hf, found]
    congr 1
    funext k
    by_cases hk : k = i
    · rw [hk, Function.update_self, hq, found_pid hf]
    · rw [Function.update_of_ne hk]
  · rw [Function.update_of_ne hji] at hj ⊢
    have hfound := hs j hj
    have hne : q ≠ (slots j).pid := by
      rintro rfl
      exact hji (Option.some.inj (hfound.symm.trans hf))
    exact found_other hothers hne hfound (by rw [Function.update_of_ne hji])

/-! ## What an access does to the slots -/

/-- An access to `q` changes at most the slot of `q`; if `keep` holds, not the text in it. -/
def Touches (q : UInt32) (slots slots' : Slots) (keep : Prop) : Prop :=
  slots' = slots ∨ ∃ s, s.pid = q ∧
    slots' = Function.update (Procfs.slotOf slots q).2 (Procfs.slotOf slots q).1 s ∧
    (keep → s.start ≠ 0 → s.vol = (cell slots q).vol ∧ (cell slots q).start ≠ 0)

theorem Touches.sole {keep : Prop} (ht : Touches q slots slots' keep) (hs : Sole slots) : Sole slots' := by
  rcases ht with rfl | ⟨s, hq, rfl, -⟩
  · exact hs
  · exact (hs.slotOf q).update (found_again fun _ => rfl) hq

/-- The text is that of the slot, if the slot is in use. -/
def Matches (slots : Slots) (pid : UInt32) (vi : Nat) (text : Text) : Prop :=
  (cell slots pid).start ≠ 0 → text = (cell slots pid).vol.getD vi []

theorem Matches.touched {vi : Nat} {text : Text} {keep : Prop} (hm : Matches slots pid vi text)
    (hs : Sole slots) (ht : Touches q slots slots' keep) (hkeep : q = pid → keep) :
    Matches slots' pid vi text := by
  have hsole := ht.sole hs
  rcases ht with rfl | ⟨s, hq, hslots, hvol⟩
  · exact hm
  by_cases hqp : q = pid
  · subst hqp
    have hcell : cell slots' q = s := by
      have hagain := @slotOf_update q s slots hq
      rw [cell, hslots, hagain]
      exact Function.update_self ..
    intro hstart
    rw [hcell] at hstart ⊢
    obtain ⟨hv, hold⟩ := hvol (hkeep rfl) hstart
    rw [hv]
    exact hm hold
  · intro hstart
    cases hf : found slots' pid with
    | none =>
      rw [cell, slotOf_missing hf] at hstart
      dsimp only at hstart
      rw [Function.update_self] at hstart
      exact absurd rfl hstart
    | some j =>
      have hcell : cell slots' pid = slots' j := by rw [cell, slotOf_found hf]
      rw [hcell] at hstart ⊢
      have hpid := found_pid hf
      -- the slot is not the one the access worked on
      have hsame : slots' j = slots j := by
        have hj : j ≠ (Procfs.slotOf slots q).1 := by
          rintro rfl
          rw [hslots, Function.update_self, hq] at hpid
          exact hqp hpid
        rw [hslots, Function.update_of_ne hj] at hpid ⊢
        rcases slotOf_others slots q j with h | h
        · exact h
        · exact absurd (h.symm.trans hpid) hqp
      rw [hsame] at hstart hpid ⊢
      have hfound := hs j hstart
      rw [hpid] at hfound
      have hold : cell slots pid = slots j := by rw [cell, slotOf_found hfound]
      rw [← hold] at hstart ⊢
      exact hm hstart

variable (h : Host) (t : Int)

/-- A refresh works on the slot it is handed. -/
theorem refresh_worked (slots : Slots) (q : UInt32) : ∃ s r, s.pid = q ∧
    h.pidRefresh slots q t = (Function.update (slotOf slots q).2 (slotOf slots q).1 s, r) ∧
    (r = none ∨ r = some (slotOf slots q).1) ∧
    (¬ h.regenerates slots t q → s.start ≠ 0 → s.vol = (cell slots q).vol ∧ (cell slots q).start ≠ 0) := by
  have hpid := (slotOf_spec slots q).1
  unfold Host.pidRefresh Host.regenerates cell
  generalize slotOf slots q = r at hpid
  obtain ⟨i, slots'⟩ := r
  dsimp only at hpid ⊢
  cases hf : (slots' i).fresh t with
  | true =>
    rw [if_pos rfl]
    refine ⟨slots' i, _, hpid, by rw [Function.update_eq_self], ?_, fun _ hs => ⟨rfl, hs⟩⟩
    split
    · exact Or.inr rfl
    · exact Or.inl rfl
  | false =>
    rw [if_neg (by decide)]
    cases ha : h.alive q with
    | true =>
      rw [if_pos rfl]
      exact ⟨{ slots' i with
        vol := pidVolatile.map (h.pidText q), ms := t, start := h.startJiffies q,
        fixed := if h.startJiffies q ≠ (slots' i).start then fun _ => [] else (slots' i).fixed },
        some i, hpid, rfl, Or.inr rfl, fun hk => absurd ⟨rfl, rfl⟩ hk⟩
    | false =>
      rw [if_neg (by decide)]
      exact ⟨{ slots' i with vol := [], ms := t, start := 0 }, none, hpid, rfl, Or.inl rfl,
        fun _ hs => absurd rfl hs⟩

theorem cell_update (hq : s.pid = q) :
    cell (Function.update (slotOf slots q).2 (slotOf slots q).1 s) q = s := by
  have hagain := @slotOf_update q s slots hq
  rw [cell, hagain]
  exact Function.update_self ..

/-- A read changes the slot of its process only, and a volatile text is the slot's. -/
theorem read_touches (slots : Slots) (q : UInt32) (name : Text) :
    Touches q slots (h.pcPidContent slots t q name).1
      (h.slotted q name = true → ¬ h.regenerates slots t q) ∧
    ∀ vi text, pidVolatile.idxOf? name = some vi → (h.pcPidContent slots t q name).2 = some text →
      text = (cell (h.pcPidContent slots t q name).1 q).vol.getD vi [] := by
  obtain ⟨s, r, hq, hr, hsome, hkeep⟩ := refresh_worked h t slots q
  have hcell := @cell_update slots q s hq
  unfold Host.pcPidContent
  rw [hr]
  cases hvi : pidVolatile.idxOf? name with
  | some vi =>
    dsimp only
    have hvol : name ∈ pidVolatile := by
      by_contra hn
      rw [List.idxOf?_eq_none_iff.mpr hn] at hvi
      cases hvi
    have hslot : h.slotted q name = true := by simp [Host.slotted, hvol]
    have ht : Touches q slots (Function.update (slotOf slots q).2 (slotOf slots q).1 s)
        (h.slotted q name = true → ¬ h.regenerates slots t q) :=
      Or.inr ⟨s, hq, rfl, fun hk => hkeep (hk hslot)⟩
    rcases hsome with rfl | rfl
    · exact ⟨ht, fun vi' text hvi' htext => by cases htext⟩
    · refine ⟨ht, fun vi' text hvi' htext => ?_⟩
      obtain rfl := Option.some.inj hvi'
      obtain rfl := Option.some.inj htext
      dsimp only
      rw [hcell, Function.update_self]
  | none =>
    dsimp only
    refine ⟨?_, fun vi text hvi' _ => by cases hvi'⟩
    cases hsi : pidStable.idxOf? name with
    | none => exact Or.inl rfl
    | some si =>
      dsimp only
      split
      · rename_i hlow
        have hvol : name ∉ pidVolatile := List.idxOf?_eq_none_iff.mp hvi
        have hmem : name ∈ pidStable := by
          by_contra hn
          rw [List.idxOf?_eq_none_iff.mpr hn] at hsi
          cases hsi
        obtain ⟨-, si', hsi', hiff⟩ := @idxOf_stable h q name hvol (List.mem_append_right _ hmem)
        obtain rfl := Option.some.inj (hsi.symm.trans hsi')
        have hslot := hiff.mpr hlow
        have ht : Touches q slots (Function.update (slotOf slots q).2 (slotOf slots q).1 s)
            (h.slotted q name = true → ¬ h.regenerates slots t q) :=
          Or.inr ⟨s, hq, rfl, fun hk => hkeep (hk hslot)⟩
        rcases hsome with rfl | rfl
        · exact ht
        · dsimp only
          split
          · split
            · exact ht
            · refine Or.inr ⟨_, ?_, by rw [Function.update_idem], fun hk => ?_⟩
              · rw [Function.update_self]
                exact hq
              · rw [Function.update_self]
                exact hkeep (hk hslot)
          · exact ht
      · exact Or.inl rfl

theorem stamp_touches (slots : Slots) (q : UInt32) (keep : Prop) :
    Touches q slots (slotOf slots q).2 keep :=
  Or.inr ⟨cell slots q, (slotOf_spec slots q).1, by rw [cell, Function.update_eq_self],
    fun _ hs => ⟨rfl, hs⟩⟩

theorem op_touches (op : Op) (slots : Slots) (q : UInt32) :
    Touches q slots (op.apply h slots t q) (op.refreshes h q = true → ¬ h.regenerates slots t q) := by
  cases op with
  | read name => exact (read_touches h t slots q name).1
  | ensure =>
    obtain ⟨s, r, hq, hr, -, hkeep⟩ := refresh_worked h t slots q
    refine Or.inr ⟨s, hq, ?_, fun hk => hkeep (hk rfl)⟩
    simp only [Op.apply, hr]
  | stamp => exact stamp_touches slots q _

/-- Only the files of a process come out of its slot. -/
theorem gen_cases (slots : Slots) (n : Node) :
    (∃ file, n.kind = .pidSub ∧ n.file = some file ∧
      h.pcGenNode slots t n = h.pcPidContent slots t n.pid file) ∨
    ((h.pcGenNode slots t n).1 = slots ∧ (n.kind ≠ .pidSub ∨ n.file = none)) := by
  by_cases hk : n.kind = .pidSub
  · unfold Host.pcGenNode
    rw [hk]
    dsimp only
    by_cases hr : n.rest = []
    · exact Or.inl ⟨n.name, rfl, if_pos hr, if_pos hr⟩
    · rw [Node.file, if_neg hr, if_neg hr]
      by_cases ht : n.name = "task".toList
      · rw [if_pos ht, if_pos ht]
        cases lastOf n.rest with
        | some file => exact Or.inl ⟨file, rfl, rfl, rfl⟩
        | none => exact Or.inr ⟨rfl, Or.inr rfl⟩
      · rw [if_neg ht, if_neg ht]
        refine Or.inr ⟨?_, Or.inr rfl⟩
        split <;> rfl
  · refine Or.inr ⟨?_, Or.inl hk⟩
    unfold Host.pcGenNode
    split <;> first | rfl | exact absurd ‹_› hk

/-- A generation changes the slot of its process only, and what it makes of a volatile
file is the slot's. -/
theorem gen_touches (slots : Slots) (n : Node) :
    Touches n.pid slots (h.pcGenNode slots t n).1
      (h.genRefreshes n = some n.pid → ¬ h.regenerates slots t n.pid) ∧
    ∀ file vi text, n.kind = .pidSub → n.file = some file → pidVolatile.idxOf? file = some vi →
      (h.pcGenNode slots t n).2 = some text →
      text = (cell (h.pcGenNode slots t n).1 n.pid).vol.getD vi [] := by
  rcases gen_cases h t slots n with ⟨file, hk, hfile, hgen⟩ | ⟨hslots, hno⟩
  · obtain ⟨ht, htext⟩ := read_touches h t slots n.pid file
    rw [hgen]
    refine ⟨?_, fun file' vi text _ hf hvi hsome => htext vi text ?_ hsome⟩
    · rcases ht with ht | ⟨s, hq, hs, hkeep⟩
      · exact Or.inl ht
      · refine Or.inr ⟨s, hq, hs, fun hr => hkeep fun hslot => hr ?_⟩
        rw [Host.genRefreshes, hfile, if_pos ⟨hk, hslot⟩]
    · rw [hfile] at hf
      rw [Option.some.inj hf]
      exact hvi
  · refine ⟨Or.inl hslots, fun file vi text hk hf => ?_⟩
    rcases hno with hno | hno
    · exact absurd hk hno
    · rw [hno] at hf
      cases hf

/-- The stamp is that of the slot. -/
theorem contentGen_touches (slots : Slots) (path : Text) :
    (h.pcContentGen slots t path).1 = slots ∨ ∃ pid vi, h.volatileOf path = some (pid, vi) ∧
      (h.pcContentGen slots t path).1 = (slotOf slots pid).2 := by
  unfold Host.pcContentGen
  cases hv : h.volatileOf path with
  | none => exact Or.inl rfl
  | some pv =>
    obtain ⟨pid, vi⟩ := pv
    refine Or.inr ⟨pid, vi, rfl, ?_⟩
    dsimp only
    split
    · rfl
    · split <;> rfl

theorem contentGen_stamp {slots : Slots} {path : Text} (hg : (h.pcContentGen slots t path).2 ≠ 0) :
    ∃ pid vi, h.volatileOf path = some (pid, vi) ∧
      (h.pcContentGen slots t path).1 = (slotOf slots pid).2 ∧
      (cell slots pid).start ≠ 0 ∧ (cell slots pid).ms = (h.pcContentGen slots t path).2 := by
  unfold Host.pcContentGen at hg ⊢
  cases hv : h.volatileOf path with
  | none =>
    rw [hv] at hg
    exact absurd rfl hg
  | some pv =>
    obtain ⟨pid, vi⟩ := pv
    rw [hv] at hg
    refine ⟨pid, vi, rfl, ?_⟩
    dsimp only at hg ⊢
    by_cases hs : ((slotOf slots pid).2 (slotOf slots pid).1).start = 0
    · rw [if_pos hs] at hg
      exact absurd rfl hg
    · rw [if_neg hs] at hg ⊢
      by_cases hw : pidDirMs ≤ t - ((slotOf slots pid).2 (slotOf slots pid).1).ms
      · rw [if_pos hw] at hg
        exact absurd rfl hg
      · rw [if_neg hw]
        exact ⟨rfl, hs, rfl⟩

end Cells

/-! ## What holds in every state -/

/-- An unstamped text is what the slot holds, as long as it holds a generation. -/
def Fits (h : Host) (slots : Slots) (path text : Text) : Prop :=
  ∀ pid vi, h.volatileOf path = some (pid, vi) → Matches slots pid vi text

def PhaseOk (s : StampState) (log : List Slots) : Phase → Prop
  | .openStamp path text => Fits s.host s.slots path text
  | .seekStamp fd path text =>
      Fits s.host s.slots path text ∧ ∃ m, s.memfds fd = some m ∧ m.vpath = path
  | .seekSwap fd text gen => ∃ m, s.memfds fd = some m ∧ Stamped s.host log m.vpath text gen
  | _ => True

structure StampInv (s : StampState) (log : List Slots) : Prop where
  sole : Sole s.slots
  short : ∀ fd m, s.memfds fd = some m → m.vpath.length ≤ 199
  truthful : Truthful s log
  phases : ∀ τ, PhaseOk s log (s.phase τ)

section Inv

variable {s s' : StampState} {log out : List Slots} {h h' : Host} {τ fd : Nat} {p : Phase} {q : UInt32}
  {slots' : Slots} {m : Memfd} {path text vpath : Text} {gen : Int} {keep : Prop}

theorem Stamped.mono (hs : Stamped h log vpath text gen) (hg : h'.getpid = h.getpid) :
    Stamped h' (out ++ log) vpath text gen := by
  intro hne
  obtain ⟨path, pid, vi, hv, hvol, slots, hmem, hrest⟩ := hs hne
  exact ⟨path, pid, vi, hv, (volatileOf_congr hg path).trans hvol, slots,
    List.mem_append_right _ hmem, hrest⟩

/-- A phase stays as good while the descriptors stay and the unstamped texts fit. -/
theorem PhaseOk.carry (hp : PhaseOk s log p) (hg : s'.host.getpid = s.host.getpid)
    (hfds : ∀ fd m, s.memfds fd = some m → ∃ m', s'.memfds fd = some m' ∧ m'.vpath = m.vpath)
    (hfits : ∀ path text, p.unstamped = some path → Fits s.host s.slots path text →
      Fits s.host s'.slots path text) : PhaseOk s' (out ++ log) p := by
  have hhost : ∀ path text, Fits s.host s'.slots path text → Fits s'.host s'.slots path text :=
    fun path text hf pid vi hv => hf pid vi ((volatileOf_congr hg path).symm.trans hv)
  cases p with
  | openStamp path text => exact hhost _ _ (hfits path text rfl hp)
  | seekStamp fd path text =>
    obtain ⟨hf, m, hm, hv⟩ := hp
    obtain ⟨m', hm', hv'⟩ := hfds fd m hm
    exact ⟨hhost _ _ (hfits path text rfl hf), m', hm', hv'.trans hv⟩
  | seekSwap fd text gen =>
    obtain ⟨m, hm, hs⟩ := hp
    obtain ⟨m', hm', hv'⟩ := hfds fd m hm
    exact ⟨m', hm', by rw [hv']; exact hs.mono hg⟩
  | _ => trivial

theorem StampInv.mono (hi : StampInv s log) (out : List Slots) : StampInv s (out ++ log) :=
  ⟨hi.sole, hi.short, fun fd m hm => (hi.truthful fd m hm).mono rfl,
    fun τ => (hi.phases τ).carry rfl (fun _ m hm => ⟨m, hm, rfl⟩) fun _ _ _ hf => hf⟩

/-- A thread moves on. -/
theorem StampInv.goto (hi : StampInv s log) (hp : PhaseOk s log p) : StampInv (s.goto τ p) log := by
  have hcarry : ∀ p, PhaseOk s log p → PhaseOk (s.goto τ p) log p := fun p hp => hp
  refine ⟨hi.sole, hi.short, hi.truthful, fun τ' => ?_⟩
  by_cases hτ : τ' = τ
  · subst hτ
    have hself : (s.goto τ' p).phase τ' = p := Function.update_self ..
    rw [hself]
    exact hp
  · have hother : (s.goto τ p).phase τ' = s.phase τ' := Function.update_of_ne hτ _ _
    rw [hother]
    exact hi.phases τ'

/-- An access that leaves the unstamped texts alone. -/
theorem StampInv.touched (hi : StampInv s log) (ht : Touches q s.slots slots' keep)
    (hkeep : ∀ τ path vi, (s.phase τ).unstamped = some path → s.host.volatileOf path = some (q, vi) → keep) :
    StampInv { s with slots := slots' } log := by
  refine ⟨ht.sole hi.sole, hi.short, hi.truthful, fun τ => ?_⟩
  have hcarry : PhaseOk { s with slots := slots' } ([] ++ log) (s.phase τ) :=
    (hi.phases τ).carry rfl (fun _ m hm => ⟨m, hm, rfl⟩) fun path text hp hf pid vi hv =>
      (hf pid vi hv).touched hi.sole ht fun hq => hkeep τ path vi hp (by rw [hq]; exact hv)
  exact hcarry

theorem StampInv.locked (hi : StampInv s log) (l : Option Nat) : StampInv { s with pcLock := l } log :=
  ⟨hi.sole, hi.short, hi.truthful, hi.phases⟩

/-- What holds of all descriptors and of a new one. -/
theorem update_all {f : Nat → Option Memfd} {P : Memfd → Prop} (hf : ∀ fd m, f fd = some m → P m)
    (hm : P m) : ∀ fd' m', Function.update f fd (some m) fd' = some m' → P m' := by
  intro fd' m' hm'
  by_cases hfd : fd' = fd
  · rw [hfd, Function.update_self] at hm'
    rw [← Option.some.inj hm']
    exact hm
  · rw [Function.update_of_ne hfd] at hm'
    exact hf fd' m' hm'

/-- A descriptor is replaced by one of the same path with a good stamp. -/
theorem StampInv.swapped (hi : StampInv s log) (hold : ∀ m₀, s.memfds fd = some m₀ → m₀.vpath = m.vpath)
    (hshort : m.vpath.length ≤ 199) (hm : Stamped s.host log m.vpath m.text m.gen) :
    StampInv { s with memfds := Function.update s.memfds fd (some m) } log := by
  refine ⟨hi.sole, update_all hi.short hshort, update_all hi.truthful hm, fun τ => ?_⟩
  have hcarry : PhaseOk { s with memfds := Function.update s.memfds fd (some m) } ([] ++ log) (s.phase τ) := by
    refine (hi.phases τ).carry rfl (fun fd' m' hm' => ?_) fun _ _ _ hf => hf
    by_cases hfd : fd' = fd
    · subst hfd
      exact ⟨m, Function.update_self .., (hold m' hm').symm⟩
    · exact ⟨m', (Function.update_of_ne hfd _ _).trans hm', rfl⟩
  exact hcarry

/-! ## Texts and their stamps -/

theorem volatileOf_some {pid : UInt32} {vi : Nat} (hv : h.volatileOf path = some (pid, vi)) :
    ∃ file, (h.pcParse (path.drop 5)).kind = .pidSub ∧ (h.pcParse (path.drop 5)).file = some file ∧
      pidVolatile.idxOf? file = some vi ∧ (h.pcParse (path.drop 5)).pid = pid := by
  unfold Host.volatileOf at hv
  split at hv
  · cases hv
  · rename_i hp
    rw [not_not] at hp
    rw [pcParse_proc h hp]
    split at hv
    · cases hv
    · rename_i hk
      rw [not_not] at hk
      obtain ⟨file, hfile, hmap⟩ := Option.bind_eq_some_iff.mp hv
      obtain ⟨vi', hvi, heq⟩ := Option.map_eq_some_iff.mp hmap
      obtain ⟨rfl, rfl⟩ := Prod.mk.inj heq
      exact ⟨file, hk, hfile, hvi, rfl⟩

/-- What a generation makes fits. -/
theorem gen_fits {slots : Slots} {t : Int}
    (hg : h.pcGenNode slots t (h.pcParse (path.drop 5)) = (slots', some text)) :
    Fits h slots' path text := by
  intro pid vi hv _
  obtain ⟨file, hk, hfile, hvi, rfl⟩ := volatileOf_some hv
  have := (gen_touches h t slots (h.pcParse (path.drop 5))).2 file vi text hk hfile hvi (by rw [hg])
  rw [hg] at this
  exact this

/-- The stamp of a text that fits is good. -/
theorem stamp_good {slots : Slots} {t : Int} (hf : Fits h slots path text) (hv : vpath = path.take 199)
    (hg : h.pcContentGen slots t path = (slots', gen)) : Stamped h (slots' :: log) vpath text gen := by
  intro hne
  have hne' : (h.pcContentGen slots t path).2 ≠ 0 := by rw [hg]; exact hne
  obtain ⟨pid, vi, hvol, hslots, hstart, hms⟩ := contentGen_stamp h t hne'
  rw [hg] at hslots hms
  dsimp only at hslots hms
  subst hslots
  exact ⟨path, pid, vi, hv, hvol, _, List.mem_cons_self, (slotOf slots pid).1, (slotOf_spec slots pid).1,
    hms, hf pid vi hvol hstart⟩

/-- Reading a stamp leaves every text alone. -/
theorem StampInv.stamped (hi : StampInv s log) (path : Text) :
    StampInv { s with slots := (s.host.pcContentGen s.slots s.clock path).1 } log := by
  rcases contentGen_touches s.host s.clock s.slots path with heq | ⟨pid, vi, -, heq⟩
  · rw [heq]
    exact hi
  · rw [heq]
    exact hi.touched (stamp_touches s.slots pid True) fun _ _ _ _ _ => trivial

/-- A generation that disturbs nobody leaves every unstamped text alone. -/
theorem StampInv.generated (hi : StampInv s log) (n : Node)
    (hu : ∀ pid, s.host.genRefreshes n = some pid → s.host.regenerates s.slots s.clock pid →
      ∀ τ path vi, (s.phase τ).unstamped = some path → s.host.volatileOf path ≠ some (pid, vi)) :
    StampInv { s with slots := (s.host.pcGenNode s.slots s.clock n).1 } log :=
  hi.touched (gen_touches s.host s.clock s.slots n).1 fun τ path vi hp hv hr hgen =>
    hu n.pid hr hgen τ path vi hp hv

theorem StampInv.leave (hi : StampInv { s with slots := slots' } log)
    (hp : PhaseOk { s with slots := slots' } log p) : StampInv (s.leave τ p slots') log :=
  (hi.goto hp).locked none

/-! ## Step by step -/

theorem runPc_inv {log : List Slots} (hi : StampInv s log) (hu : Undisturbed s (.run τ fd))
    (hs : s.runPc τ fd = some s') : StampInv s' ([s'.slots] ++ log) := by
  have hphase := hi.phases τ
  unfold StampState.runPc at hs
  split at hs
  · -- the text of an open
    rename_i path hpτ
    have hgen := fun log => (hi.mono log).generated (s.host.pcParse (path.drop 5)) fun pid hr =>
      hu pid (by simp only [StampState.refreshes, hpτ, hr])
    split at hs
    · rename_i slots' text hg
      rw [hg] at hgen
      obtain rfl := Option.some.inj hs
      exact (hgen _).leave (gen_fits hg)
    · rename_i slots' hg
      rw [hg] at hgen
      obtain rfl := Option.some.inj hs
      exact (hgen _).leave trivial
  · -- its stamp
    rename_i path text hpτ
    rw [hpτ] at hphase
    have hstamped := fun out => (hi.mono out).stamped path
    generalize hg : s.host.pcContentGen s.slots s.clock path = r at hs hstamped
    obtain ⟨slots', gen⟩ := r
    obtain rfl := Option.some.inj hs
    have hgood : Stamped s.host ([slots'] ++ log) (path.take 199) text gen := stamp_good hphase rfl hg
    unfold StampState.opened
    split
    · rename_i hnone
      refine StampInv.leave ((hstamped [slots']).swapped (fun m₀ hm₀ => ?_) ?_ hgood) trivial
      · rw [hnone] at hm₀
        cases hm₀
      · rw [List.length_take]
        omega
    · exact StampInv.leave (hstamped [slots']) trivial
  · -- the stamps of a rewind
    rename_i fd hpτ
    split at hs
    · cases hs
    · rename_i m hm
      have hstamped := fun out => (hi.mono out).stamped m.vpath
      generalize s.host.pcContentGen s.slots s.clock m.vpath = r at hs hstamped
      obtain ⟨slots', gen⟩ := r
      obtain rfl := Option.some.inj hs
      refine StampInv.leave (hstamped [slots']) ?_
      split <;> trivial
  · -- the text of a rewind
    rename_i fd hpτ
    split at hs
    · cases hs
    · rename_i m hm
      have hgen := fun out => (hi.mono out).generated (s.host.pcParse (m.vpath.drop 5)) fun pid hr =>
        hu pid (by simp only [StampState.refreshes, hpτ, hm, Option.bind_some, hr])
      split at hs
      · rename_i slots' text hg
        rw [hg] at hgen
        obtain rfl := Option.some.inj hs
        exact (hgen _).leave ⟨gen_fits hg, m, hm, rfl⟩
      · rename_i slots' hg
        rw [hg] at hgen
        obtain rfl := Option.some.inj hs
        exact (hgen _).leave trivial
  · -- its stamp
    rename_i fd path text hpτ
    rw [hpτ] at hphase
    obtain ⟨hfits, m, hm, rfl⟩ := hphase
    have hstamped := fun out => (hi.mono out).stamped m.vpath
    generalize hg : s.host.pcContentGen s.slots s.clock m.vpath = r at hs hstamped
    obtain ⟨slots', gen⟩ := r
    obtain rfl := Option.some.inj hs
    have hcut : m.vpath = m.vpath.take 199 := (List.take_of_length_le (hi.short fd m hm)).symm
    have hgood : Stamped s.host ([slots'] ++ log) m.vpath text gen := stamp_good hfits hcut hg
    exact StampInv.leave (hstamped [slots']) ⟨m, hm, hgood⟩
  · cases hs

theorem runFd_inv (hi : StampInv s log) (hs : s.runFd τ = some s') : StampInv s' log := by
  have hphase := hi.phases τ
  have hleave : ∀ fd m₀ m, s.memfds fd = some m₀ → m.vpath = m₀.vpath →
      Stamped s.host log m.vpath m.text m.gen → StampInv (s.leaveFd τ fd m) log := by
    intro fd m₀ m hm₀ hv hm
    have hswap : StampInv { s with
        memfds := Function.update s.memfds fd (some { m with lock := none }) } log := by
      refine hi.swapped (fun m₁ hm₁ => ?_) ?_ hm
      · rw [Option.some.inj (hm₁.symm.trans hm₀)]
        exact hv.symm
      · dsimp only
        rw [hv]
        exact hi.short fd m₀ hm₀
    exact hswap.goto (p := .idle) trivial
  unfold StampState.runFd at hs
  split at hs
  · rename_i fd text gen hpτ
    rw [hpτ] at hphase
    obtain ⟨m, hm, hgood⟩ := hphase
    rw [hm] at hs
    obtain rfl := Option.some.inj hs
    exact hleave fd m _ hm rfl hgood
  · rename_i fd pos hpτ
    obtain ⟨m, hm, rfl⟩ := Option.map_eq_some_iff.mp hs
    exact hleave fd m _ hm rfl (hi.truthful fd m hm)
  · rename_i fd n hpτ
    obtain ⟨m, hm, rfl⟩ := Option.map_eq_some_iff.mp hs
    exact hleave fd m _ hm rfl (hi.truthful fd m hm)
  · cases hs

theorem enter_inv {fd : Nat} {p : Phase} (hi : StampInv s log) (hp : PhaseOk s log p)
    (hs : s.enter τ fd p = some s') : StampInv s' log := by
  unfold StampState.enter at hs
  split at hs
  · split at hs
    · obtain rfl := Option.some.inj hs
      exact hi.goto hp
    · cases hs
  · cases hs

/-- **Every undisturbed step** keeps the invariant. -/
theorem step_inv {a : StampLabel} (hi : StampInv s log) (hu : Undisturbed s a)
    (hs : s.step a = some (s', out)) : StampInv s' (out ++ log) := by
  unfold StampState.step at hs
  cases a with
  | tick t h =>
    dsimp only at hs
    split at hs
    · rename_i hc
      obtain ⟨rfl, rfl⟩ := Prod.mk.inj (Option.some.inj hs)
      refine ⟨hi.sole, hi.short, fun fd m hm => (hi.truthful fd m hm).mono hc.2, fun τ => ?_⟩
      exact (hi.phases τ).carry hc.2 (fun _ m hm => ⟨m, hm, rfl⟩) fun _ _ _ hf => hf
    · cases hs
  | access pid op =>
    dsimp only at hs
    split at hs
    · obtain ⟨rfl, rfl⟩ := Prod.mk.inj (Option.some.inj hs)
      refine (hi.mono _).touched (op_touches s.host s.clock op s.slots pid) fun τ path vi hp hv hr hgen => ?_
      exact hu pid (if_pos hr) hgen τ path vi hp hv
    · cases hs
  | callOpen τ path =>
    dsimp only at hs
    split at hs
    · split at hs
      · obtain ⟨rfl, rfl⟩ := Prod.mk.inj (Option.some.inj hs)
        exact hi.goto trivial
      · cases hs
    · cases hs
  | rewind τ fd =>
    obtain ⟨s₁, hs₁, heq⟩ := Option.map_eq_some_iff.mp hs
    obtain ⟨rfl, rfl⟩ := Prod.mk.inj heq
    refine enter_inv hi ?_ hs₁
    split <;> trivial
  | seek τ fd pos =>
    obtain ⟨s₁, hs₁, heq⟩ := Option.map_eq_some_iff.mp hs
    obtain ⟨rfl, rfl⟩ := Prod.mk.inj heq
    refine enter_inv hi ?_ hs₁
    exact trivial
  | read τ fd n =>
    obtain ⟨s₁, hs₁, heq⟩ := Option.map_eq_some_iff.mp hs
    obtain ⟨rfl, rfl⟩ := Prod.mk.inj heq
    refine enter_inv hi ?_ hs₁
    exact trivial
  | lock τ =>
    dsimp only at hs
    split at hs
    · split at hs
      · obtain ⟨rfl, rfl⟩ := Prod.mk.inj (Option.some.inj hs)
        exact hi.locked (some τ)
      · cases hs
    · split at hs
      · cases hs
      · rename_i fd hfd
        split at hs
        · rename_i m hm
          split at hs
          · obtain ⟨rfl, rfl⟩ := Prod.mk.inj (Option.some.inj hs)
            refine hi.swapped (fun m₀ hm₀ => ?_) (hi.short fd m hm) (hi.truthful fd m hm)
            rw [Option.some.inj (hm₀.symm.trans hm)]
          · cases hs
        · cases hs
  | run τ fd =>
    dsimp only at hs
    split at hs
    · split at hs
      · obtain ⟨s₁, hs₁, heq⟩ := Option.map_eq_some_iff.mp hs
        obtain ⟨rfl, rfl⟩ := Prod.mk.inj heq
        exact runPc_inv hi hu hs₁
      · cases hs
    · split at hs
      · cases hs
      · split at hs
        · obtain ⟨s₁, hs₁, heq⟩ := Option.map_eq_some_iff.mp hs
          obtain ⟨rfl, rfl⟩ := Prod.mk.inj heq
          exact runFd_inv hi hs₁
        · cases hs

end Inv

/-- A rewind whose stamp is current has a text of the very generation that is current. -/
def SkipsTruly (s : StampState) (log : List Slots) : Prop :=
  ∀ τ fd m, s.phase τ = .seekCheck fd → s.memfds fd = some m → m.gen ≠ 0 →
    m.gen = (s.host.pcContentGen s.slots s.clock m.vpath).2 →
    ∃ slots ∈ log, ∃ i pid vi, (slots i).pid = pid ∧ m.text = (slots i).vol.getD vi [] ∧
      (slots i).ms = (s.host.pcContentGen s.slots s.clock m.vpath).2

theorem undisturbed_of_none {s : StampState} {a : StampLabel} (hr : s.refreshes a = none) :
    Undisturbed s a := by
  intro pid hp
  rw [hr] at hp
  cases hp

/-- The host with one text in all the files of a process. -/
def hostOf (text : Text) : Host := { plainHost with pidText := fun _ _ => text }

/-- An open whose process gets a new generation before the stamp. -/
def mixedOpen : List StampLabel :=
  [.callOpen 0 "/proc/7/stat".toList, .lock 0, .run 0 0, .tick 5300 (hostOf "new".toList),
    .access 7 .ensure, .lock 0, .run 0 3]

/-- What holds of every slot, and of what a refresh can make of one. -/
theorem refresh_forall {P : PidSlot → Prop} {slots : Slots} {h : Host} {q : UInt32} {t : Int}
    (hs : ∀ j, P (slots j)) (hblank : P { pid := q })
    (hlive : ∀ (s : PidSlot) start fixed,
      P { s with vol := pidVolatile.map (h.pidText q), ms := t, start, fixed })
    (hgone : ∀ s : PidSlot, P { s with vol := [], ms := t, start := 0 }) :
    ∀ j, P ((h.pidRefresh slots q t).1 j) := by
  have hfound : ∀ j, P ((slotOf slots q).2 j) := by
    intro j
    rcases (slotOf_spec slots q).2 j with h | h
    · rw [h]
      exact hs j
    · rw [h]
      exact hblank
  have hput : ∀ {slots : Slots} {s : PidSlot} {i : Fin 2048}, (∀ j, P (slots j)) → P s →
      ∀ j, P (Function.update slots i s j) := by
    intro slots s i hs hp j
    by_cases hj : j = i
    · rw [hj, Function.update_self]
      exact hp
    · rw [Function.update_of_ne hj]
      exact hs j
  unfold Host.pidRefresh
  generalize slotOf slots q = r at hfound
  obtain ⟨i, slots'⟩ := r
  dsimp only at hfound ⊢
  split
  · exact hfound
  · split
    · exact hput hfound (hlive _ _ _)
    · exact hput hfound (hgone _)

/-- No slot has the text "old" under the stamp 5300. -/
def Unmixed (s : PidSlot) : Prop := s.ms = 5300 → ∀ vi, s.vol.getD vi [] ≠ "old".toList

theorem unmixed_new : ∀ vi, (pidVolatile.map ((hostOf "new".toList).pidText 7)).getD vi [] ≠ "old".toList
  | 0 | 1 | 2 | 3 => by decide
  | _ + 4 => by
    intro h
    cases h

end ApeShim.Procfs
