import ApeShim.Lib.Decimal
import Mathlib.Data.List.Perm.Basic

/-!
`__describe_fds` and `__undescribe_fds` of `shim/describefds.c`: the descriptor table is written
into an environment variable for a new process, and the handles the process inherits are
collected. The buffer and the handle array have the sizes the source allocates, and a store
outside of them is a crash, like an assertion that fails.
-/

namespace ApeShim.DescribeFds

/-! ## The tables -/

/-- What is read of `struct Fd`; `cursor` is the address `f->cursor->shared`. -/
structure Fd (A : Type*) where
  kind : Int8
  flags : UInt32
  mode : UInt32
  handle : Int64
  cursor : Option A
  type : Int32
  family : Int32
  protocol : Int32

/-- The descriptor table; its entries are numbered by an `int`. -/
structure FdTable (A : Type*) where
  fds : List (Fd A)
  int : fds.length ≤ 2 ^ 31

/-- Constants of the libc. -/
structure Consts where
  kFdEmpty : Int8
  kFdReserved : Int8
  kFdZip : Int8
  kFdEpoll : Int8
  oCloexec : UInt32

/-- `__is_cloexec` -/
def Consts.isCloexec {A : Type*} (c : Consts) (f : Fd A) : Bool :=
  f.kind = c.kFdEmpty || f.kind = c.kFdReserved || f.kind = c.kFdZip || f.kind = c.kFdEpoll ||
    f.flags &&& c.oCloexec ≠ 0 || f.handle = -1 || f.handle = 0

/-- What the system and the libc answer. -/
structure Sys (A : Type*) extends Consts where
  /-- the `n`-th `DuplicateHandle`: the handle in the creator process, unless it fails -/
  duplicateHandle : Nat → Int64 → Option Int64
  /-- the handle of the map that starts at an address (`__maps_floor`) -/
  mapAt : A → Option Int64
  strdup : Bool
  calloc : Nat → Bool
  realloc : Nat → Bool

/-- `_COSMO_FDS_V2=` -/
def fdsVar : List Char := "_COSMO_FDS_V2=".toList

/-- `MAX_ENTRY_BYTES` -/
def maxEntryBytes : Nat := 256

/-! ## The loop -/

/-- The string builder (`text` up to `sb.i`, `size` for `sb.n`), the handle array up to `hi`, the
startup handles, and what is open in the creator process on this call's account. -/
structure State where
  text : List Char
  size : Nat
  handles : List Int64
  stdiofds : List Int64
  opened : List Int64
  calls : Nat

inductive Stop
  | crash
  /-- the call returns 0, with these handles left open in the creator process -/
  | failure (opened : List Int64)

/-- `__undescribe_fds`: what is open once the handles of the array are closed. -/
def undescribeFds (handles opened : List Int64) : List Int64 :=
  handles.foldl List.erase opened

/-- `OnFailure` -/
def State.onFailure (s : State) : Stop := .failure (undescribeFds s.handles s.opened)

variable {A : Type*}

/-- `DuplicateHandle` -/
def Sys.duplicate (sys : Sys A) (s : State) (h : Int64) : Option (Int64 × State) :=
  (sys.duplicateHandle s.calls h).map fun d =>
    (d, { s with opened := d :: s.opened, calls := s.calls + 1 })

/-- Startup handles that are `h` become `d`. -/
def State.redirect (s : State) (h d : Int64) : State :=
  { s with stdiofds := s.stdiofds.map fun x => if x = h then d else x }

/-- `handles[hi++] = h` -/
def State.put (count : Nat) (s : State) (h : Int64) : Except Stop State :=
  if s.handles.length < count then .ok { s with handles := s.handles ++ [h] } else .error .crash

/-- The shared memory handle of the file offset pointer. -/
def Sys.shareCursor (sys : Sys A) (count : Nat) (s : State) (f : Fd A) :
    Except Stop (Int64 × State) :=
  match f.cursor with
  | none => .ok (0, s)
  | some shared =>
    match sys.mapAt shared with
    | none => .error s.onFailure
    | some hand =>
      match sys.duplicate s hand with
      | none => .error s.onFailure
      | some (shand, s) => (s.put count shand).map fun s => (shand, s)

/-- Make room for an entry. -/
def Sys.grow (sys : Sys A) (s : State) : Except Stop State :=
  if s.text.length + maxEntryBytes > s.size then
    let size := s.size + s.size / 2 + maxEntryBytes
    if sys.realloc size then .ok { s with size } else .error { s with size }.onFailure
  else .ok s

/-- Write an entry and the NUL behind it. -/
def State.serialize (s : State) (entry : List Char) : Except Stop State :=
  if s.text.length + entry.length < s.size ∧ entry.length < maxEntryBytes then
    .ok { s with text := s.text ++ entry }
  else .error .crash

/-- The nine numbers of an entry. -/
def Fd.numbers (f : Fd A) (fd : Nat) (handle shand : Int64) : List Int :=
  [fd, handle.toInt, f.kind.toInt, f.flags.toNat, f.mode.toNat, shand.toInt, f.type.toInt,
    f.family.toInt, f.protocol.toInt]

/-- The body of the second loop. -/
def Sys.describeFd (sys : Sys A) (count : Nat) (s : State) (fd : Nat) (f : Fd A) :
    Except Stop State :=
  if sys.isCloexec f then .ok s
  else
    match sys.duplicate s f.handle with
    | none => .error s.onFailure
    | some (handle, s) => do
      let s ← (s.redirect f.handle handle).put count handle
      let (shand, s) ← sys.shareCursor count s f
      let s ← sys.grow s
      s.serialize (Decimal.row '_' ';' (f.numbers fd handle shand))

def Sys.describeFrom (sys : Sys A) (count : Nat) : Nat → List (Fd A) → State → Except Stop State
  | _, [], s => .ok s
  | fd, f :: fds, s => do
    let s ← sys.describeFd count s fd f
    sys.describeFrom count (fd + 1) fds s

/-- What an entry of the table adds to `handlecount`. -/
def Consts.handleCost (c : Consts) (f : Fd A) : Nat :=
  if c.isCloexec f then 0 else if f.cursor.isSome then 2 else 1

/-- The first loop. -/
def Consts.handleCount (c : Consts) (fds : List (Fd A)) : Nat := (fds.map c.handleCost).sum

/-- Before the second loop. -/
def State.start (stdiofds : List Int64) : State :=
  ⟨fdsVar, fdsVar.length + 1, [], stdiofds, [], 0⟩

/-- `__describe_fds` -/
def Sys.describeFds (sys : Sys A) (table : FdTable A) (stdiofds : List Int64) :
    Except Stop State :=
  let count := sys.handleCount table.fds
  if !sys.strdup then .error (.failure [])
  else if !sys.calloc count then .error (.failure [])
  else do
    let s ← sys.describeFrom count 0 table.fds (.start stdiofds)
    if s.handles.length = count then .ok s else .error .crash

/-! ## What is handed on -/

/-- A descriptor that is handed on, and what its handles are in the creator process. -/
structure Entry (A : Type*) where
  fd : Nat
  f : Fd A
  handle : Int64
  shand : Int64

namespace Entry

variable (sys : Sys A) (e : Entry A)

def numbers : List Int := e.f.numbers e.fd e.handle e.shand

/-- Its part of the handle array. -/
def array : List Int64 := if e.f.cursor.isSome then [e.handle, e.shand] else [e.handle]

/-- The handles are duplicates of the descriptor's own, and the second is 0 without a cursor. -/
structure Duplicated : Prop where
  handle : ∃ n, sys.duplicateHandle n e.f.handle = some e.handle
  shared : ∀ a, e.f.cursor = some a → ∃ hand n, sys.mapAt a = some hand ∧
    sys.duplicateHandle n hand = some e.shand
  unshared : e.f.cursor = none → e.shand = 0

/-- A startup handle that is the descriptor's becomes the duplicate. -/
def redirect (h : Int64) : Int64 := if h = e.f.handle then e.handle else h

end Entry

/-- The descriptors that are handed on, with their numbers. -/
def Consts.inherited (c : Consts) : Nat → List (Fd A) → List (Nat × Fd A)
  | _, [] => []
  | fd, f :: fds =>
      if c.isCloexec f then c.inherited (fd + 1) fds else (fd, f) :: c.inherited (fd + 1) fds

/-- What the loop has done from `s` to `s'`, entry by entry. -/
structure Progress (sys : Sys A) (s s' : State) (es : List (Entry A)) : Prop where
  text : s'.text = s.text ++ es.flatMap fun e => Decimal.row '_' ';' e.numbers
  handles : s'.handles = s.handles ++ es.flatMap Entry.array
  duplicated : ∀ e ∈ es, e.Duplicated sys
  stdiofds : s'.stdiofds = s.stdiofds.map fun h => es.foldl (fun h e => e.redirect h) h

/-- There is room for the final NUL, and the array holds just the handles that are open. -/
structure Ready (s : State) : Prop where
  room : s.text.length < s.size
  opened : s.opened.Perm s.handles

theorem undescribe_perm {handles : List Int64} :
    ∀ {opened : List Int64}, opened.Perm handles → undescribeFds handles opened = [] := by
  induction handles with
  | nil =>
    intro opened h
    exact List.perm_nil.mp h
  | cons h handles ih =>
    intro opened hperm
    have herase := hperm.erase h
    rw [List.erase_cons_head] at herase
    exact ih herase

theorem Ready.onFailure {s : State} (h : Ready s) : s.onFailure = .failure [] := by
  rw [State.onFailure, undescribe_perm h.opened]

/-- Every number of an entry fits in 64 bits. -/
theorem numbers_bounds (f : Fd A) {fd : Nat} (hfd : fd < 2 ^ 31) (handle shand : Int64) :
    ∀ n ∈ f.numbers fd handle shand, -2 ^ 63 ≤ n ∧ n < 2 ^ 63 := by
  have hbyte := f.kind.le_toInt
  have hbyte' := f.kind.toInt_lt
  have hlong : ∀ x : Int64, -2 ^ 63 ≤ x.toInt ∧ x.toInt < 2 ^ 63 := fun x =>
    ⟨x.le_toInt, x.toInt_lt⟩
  have hint : ∀ x : Int32, -2 ^ 63 ≤ x.toInt ∧ x.toInt < 2 ^ 63 := fun x => by
    have hlo := x.le_toInt
    have hhi := x.toInt_lt
    omega
  have hflags := f.flags.toNat_lt
  have hmode := f.mode.toNat_lt
  simp only [Fd.numbers, List.forall_mem_cons, List.not_mem_nil, false_imp_iff, implies_true,
    and_true]
  exact ⟨by omega, hlong handle, by omega, by omega, by omega, hlong shand, hint _, hint _, hint _⟩

/-- An entry is shorter than the room that is made for it. -/
theorem entry_length (f : Fd A) {fd : Nat} (hfd : fd < 2 ^ 31) (handle shand : Int64) :
    (Decimal.row '_' ';' (f.numbers fd handle shand)).length < maxEntryBytes := by
  have hlen : (Decimal.row '_' ';' (f.numbers fd handle shand)).length ≤ 21 * 9 :=
    Decimal.row_length_le (List.cons_ne_nil _ _) (numbers_bounds f hfd handle shand)
  rw [maxEntryBytes]
  omega

/-! ## One descriptor -/

/-- What the loop comes to: it fails with nothing left open, or it has handed on `want` and the
array has taken that many handles. -/
def Comes (sys : Sys A) (s : State) (want : List (Nat × Fd A)) (cost : Nat) :
    Except Stop State → Prop
  | .ok s' => Ready s' ∧ s'.handles.length = s.handles.length + cost ∧
      ∃ es : List (Entry A), Progress sys s s' es ∧ es.map (fun e => (e.fd, e.f)) = want
  | .error .crash => False
  | .error (.failure opened) => opened = []

section One

variable {sys : Sys A} {s : State} {count : Nat}

/-- Once a duplicate is stored, the array again holds just what is open. -/
theorem Ready.put (h : Ready s) (s₁ : State) {d : Int64} (htext : s₁.text = s.text)
    (hsize : s₁.size = s.size) (hhandles : s₁.handles = s.handles)
    (hopened : s₁.opened = d :: s.opened) (hcount : s.handles.length < count) :
    ∃ s₂, s₁.put count d = .ok s₂ ∧ Ready s₂ ∧ s₂.handles = s.handles ++ [d] ∧
      s₂.text = s.text ∧ s₂.stdiofds = s₁.stdiofds := by
  refine ⟨{ s₁ with handles := s₁.handles ++ [d] }, ?_, ⟨?_, ?_⟩, ?_, htext, rfl⟩
  · rw [State.put, hhandles, if_pos hcount]
  · rw [htext, hsize]
    exact h.room
  · rw [hopened, hhandles]
    exact (h.opened.cons d).trans (List.perm_append_singleton d s.handles).symm
  · rw [hhandles]

theorem grow_spec (sys : Sys A) (h : Ready s) :
    (∃ s', sys.grow s = .ok s' ∧ s'.text = s.text ∧ s'.handles = s.handles ∧
      s'.stdiofds = s.stdiofds ∧ s'.opened = s.opened ∧
      s.text.length + maxEntryBytes ≤ s'.size) ∨
      sys.grow s = .error (.failure []) := by
  have hroom := h.room
  rw [Sys.grow]
  split
  · rename_i hsmall
    by_cases hr : sys.realloc (s.size + s.size / 2 + maxEntryBytes) = true
    · left
      refine ⟨_, if_pos hr, rfl, rfl, rfl, rfl, ?_⟩
      simp only
      omega
    · right
      simp only [hr, if_false, Bool.false_eq_true]
      rw [State.onFailure, undescribe_perm h.opened]
  · rename_i hlarge
    exact Or.inl ⟨s, rfl, rfl, rfl, rfl, rfl, by omega⟩

/-- An entry fits where room was made for it. -/
theorem serialize_spec {entry : List Char} (hroom : s.text.length + maxEntryBytes ≤ s.size)
    (hlen : entry.length < maxEntryBytes) :
    s.serialize entry = .ok { s with text := s.text ++ entry } ∧
      (s.text ++ entry).length < s.size := by
  refine ⟨if_pos ⟨by omega, hlen⟩, ?_⟩
  rw [List.length_append]
  omega

theorem shareCursor_spec (sys : Sys A) (h : Ready s) (f : Fd A)
    (hroom : f.cursor.isSome = true → s.handles.length < count) :
    (∃ shand s', sys.shareCursor count s f = .ok (shand, s') ∧ Ready s' ∧
      s'.handles = s.handles ++ (if f.cursor.isSome then [shand] else []) ∧
      s'.text = s.text ∧ s'.stdiofds = s.stdiofds ∧
      (∀ a, f.cursor = some a → ∃ hand n, sys.mapAt a = some hand ∧
        sys.duplicateHandle n hand = some shand) ∧ (f.cursor = none → shand = 0)) ∨
      sys.shareCursor count s f = .error (.failure []) := by
  rw [Sys.shareCursor]
  cases hc : f.cursor with
  | none => exact Or.inl ⟨0, s, rfl, h, by simp, rfl, rfl, by simp, fun _ => rfl⟩
  | some shared =>
    simp only [Option.isSome_some, if_true]
    cases hmap : sys.mapAt shared with
    | none => exact Or.inr (congrArg Except.error h.onFailure)
    | some hand =>
      simp only [Sys.duplicate]
      cases hdup : sys.duplicateHandle s.calls hand with
      | none => exact Or.inr (congrArg Except.error h.onFailure)
      | some shand =>
        obtain ⟨s', hput, hready, hhandles, htext, hstdio⟩ :=
          h.put { s with opened := shand :: s.opened, calls := s.calls + 1 } rfl rfl rfl rfl
            (hroom (by rw [hc]; rfl))
        refine Or.inl ⟨shand, s', ?_, hready, hhandles, htext, hstdio, ?_, ?_⟩
        · simp only [Option.map_some, hput, Except.map]
        · rintro a ha
          obtain rfl := Option.some.inj ha
          exact ⟨hand, s.calls, hmap, hdup⟩
        · intro hnone
          cases hnone

/-- The body of the loop never crashes, leaves nothing open if it fails, and else hands the
descriptor on. -/
theorem describeFd_spec (h : Ready s) (f : Fd A) {fd : Nat} (hfd : fd < 2 ^ 31)
    (hroom : s.handles.length + sys.handleCost f ≤ count) :
    Comes sys s (sys.inherited fd [f]) (sys.handleCost f) (sys.describeFd count s fd f) := by
  simp only [Consts.inherited]
  rw [Sys.describeFd]
  rw [Consts.handleCost] at hroom ⊢
  split
  · -- a descriptor that stays behind
    exact ⟨h, rfl, [], ⟨by simp, by simp, by simp, by simp⟩, rfl⟩
  · rename_i hkeep
    rw [if_neg hkeep] at hroom
    simp only [Sys.duplicate]
    cases hdup : sys.duplicateHandle s.calls f.handle with
    | none =>
      simp only [Option.map_none, h.onFailure]
      rfl
    | some handle =>
      have hone : s.handles.length < count := by
        split at hroom <;> omega
      obtain ⟨s₁, hput, hready₁, hhandles₁, htext₁, hstdio₁⟩ :=
        h.put (State.redirect { s with opened := handle :: s.opened, calls := s.calls + 1 }
          f.handle handle) rfl rfl rfl rfl hone
      have htwo : f.cursor.isSome = true → s₁.handles.length < count := by
        intro hc
        rw [if_pos hc] at hroom
        rw [hhandles₁, List.length_append, List.length_singleton]
        omega
      simp only [Option.map_some, hput, Except.bind, bind]
      rcases shareCursor_spec sys hready₁ f htwo with
        ⟨shand, s₂, hshare, hready₂, hhandles₂, htext₂, hstdio₂, hshared, hnone⟩ | hfail
      · simp only [hshare]
        rcases grow_spec sys hready₂ with
          ⟨s₃, hgrow, htext₃, hhandles₃, hstdio₃, hopened₃, hsize⟩ | hfail
        · rw [← htext₃] at hsize
          obtain ⟨hwrite, hlen⟩ := serialize_spec hsize (entry_length f hfd handle shand)
          simp only [hgrow, hwrite]
          have harray : s₃.handles = s.handles ++ (Entry.mk fd f handle shand).array := by
            rw [hhandles₃, hhandles₂, hhandles₁, Entry.array, List.append_assoc]
            split <;> rfl
          refine ⟨⟨hlen, ?_⟩, ?_, [⟨fd, f, handle, shand⟩], ⟨?_, ?_, ?_, ?_⟩, rfl⟩
          · rw [hopened₃, hhandles₃]
            exact hready₂.opened
          · simp only [harray, Entry.array, List.length_append]
            split <;> rfl
          · rw [List.flatMap_singleton, htext₃, htext₂, htext₁]
            rfl
          · rw [List.flatMap_singleton]
            exact harray
          · intro e he
            obtain rfl := List.mem_singleton.mp he
            exact ⟨⟨s.calls, hdup⟩, hshared, hnone⟩
          · rw [hstdio₃, hstdio₂, hstdio₁]
            rfl
        · simp only [hfail]
          rfl
      · simp only [hfail]
        rfl

end One

/-! ## The whole table -/

section Table

variable {sys : Sys A} {s s₁ s₂ : State} {count : Nat}

theorem Progress.trans {es₁ es₂ : List (Entry A)} (h₁ : Progress sys s s₁ es₁)
    (h₂ : Progress sys s₁ s₂ es₂) : Progress sys s s₂ (es₁ ++ es₂) := by
  refine ⟨?_, ?_, fun e he => ?_, ?_⟩
  · rw [h₂.text, h₁.text, List.flatMap_append, List.append_assoc]
  · rw [h₂.handles, h₁.handles, List.flatMap_append, List.append_assoc]
  · exact (List.mem_append.mp he).elim (h₁.duplicated e) (h₂.duplicated e)
  · rw [h₂.stdiofds, h₁.stdiofds, List.map_map]
    refine List.map_congr_left fun h _ => ?_
    rw [List.foldl_append]
    rfl

theorem inherited_cons (c : Consts) (fd : Nat) (f : Fd A) (fds : List (Fd A)) :
    c.inherited fd (f :: fds) = c.inherited fd [f] ++ c.inherited (fd + 1) fds := by
  simp only [Consts.inherited]
  split <;> rfl

/-- The loop over the rest of the table, from wherever it is. -/
theorem describeFrom_spec (fds : List (Fd A)) : ∀ (fd : Nat) {s : State}, Ready s →
    fd + fds.length ≤ 2 ^ 31 → s.handles.length + sys.handleCount fds ≤ count →
    Comes sys s (sys.inherited fd fds) (sys.handleCount fds) (sys.describeFrom count fd fds s) := by
  induction fds with
  | nil =>
    intro fd s h _ _
    exact ⟨h, rfl, [], ⟨by simp, by simp, by simp, by simp⟩, rfl⟩
  | cons f fds ih =>
    intro fd s h hfd hroom
    have hcost : sys.handleCount (f :: fds) = sys.handleCost f + sys.handleCount fds := by
      simp only [Consts.handleCount, List.map_cons, List.sum_cons]
    rw [hcost] at hroom ⊢
    rw [List.length_cons] at hfd
    have hone : Comes sys s (sys.inherited fd [f]) (sys.handleCost f)
        (sys.describeFd count s fd f) := describeFd_spec h f (by omega) (by omega)
    rw [Sys.describeFrom, inherited_cons]
    cases hd : sys.describeFd count s fd f with
    | error e =>
      rw [hd] at hone
      cases e with
      | crash => exact hone.elim
      | failure opened => exact hone
    | ok s₁ =>
      rw [hd] at hone
      obtain ⟨hready₁, hlen₁, es₁, hprog₁, hes₁⟩ := hone
      have hrest := ih (fd + 1) hready₁ (by omega) (by omega)
      simp only [bind, Except.bind]
      cases hr : sys.describeFrom count (fd + 1) fds s₁ with
      | error e =>
        rw [hr] at hrest
        cases e with
        | crash => exact hrest.elim
        | failure opened => exact hrest
      | ok s₂ =>
        rw [hr] at hrest
        obtain ⟨hready₂, hlen₂, es₂, hprog₂, hes₂⟩ := hrest
        refine ⟨hready₂, by omega, es₁ ++ es₂, hprog₁.trans hprog₂, ?_⟩
        rw [List.map_append, hes₁, hes₂]

theorem describeFds_comes (sys : Sys A) (table : FdTable A) (stdiofds : List Int64) :
    Comes sys (State.start stdiofds) (sys.inherited 0 table.fds) (sys.handleCount table.fds)
      (sys.describeFds table stdiofds) := by
  rw [Sys.describeFds]
  cases sys.strdup with
  | false => rfl
  | true =>
    cases sys.calloc (sys.handleCount table.fds) with
    | false => rfl
    | true =>
      have hready : Ready (State.start stdiofds) := ⟨Nat.lt_succ_self _, List.Perm.refl _⟩
      have hint := table.int
      have hall : Comes sys (State.start stdiofds) (sys.inherited 0 table.fds)
          (sys.handleCount table.fds)
          (sys.describeFrom (sys.handleCount table.fds) 0 table.fds (State.start stdiofds)) :=
        describeFrom_spec table.fds 0 hready (by omega) (Nat.le_of_eq (Nat.zero_add _))
      simp only [Bool.not_true, if_false, Bool.false_eq_true, bind, Except.bind]
      cases hd : sys.describeFrom (sys.handleCount table.fds) 0 table.fds (.start stdiofds) with
      | error e =>
        rw [hd] at hall
        exact hall
      | ok s =>
        rw [hd] at hall
        have hlen : s.handles.length = sys.handleCount table.fds :=
          hall.2.1.trans (Nat.zero_add _)
        simp only [hlen, if_true]
        exact hall

end Table

/-- **Nothing is overrun and nothing is leaked**: neither the buffer nor the array is written
outside its bounds and no assertion fails; a call that fails leaves no handle open in the creator
process, and one that succeeds leaves open just those it returns, as many as were counted. -/
theorem describe_fds_clean (sys : Sys A) (table : FdTable A) (stdiofds : List Int64) :
    match sys.describeFds table stdiofds with
    | .ok s => s.opened.Perm s.handles ∧ s.handles.length = sys.handleCount table.fds ∧
        s.text.length < s.size
    | .error .crash => False
    | .error (.failure opened) => opened = [] := by
  have hall := describeFds_comes sys table stdiofds
  cases hd : sys.describeFds table stdiofds with
  | error e =>
    rw [hd] at hall
    cases e with
    | crash => exact hall
    | failure opened => exact hall
  | ok s =>
    rw [hd] at hall
    exact ⟨hall.1.opened, hall.2.1.trans (Nat.zero_add _), hall.1.room⟩

/-- What a new process can read of the variable: the numbers of each entry. -/
def decode (text : List Char) : Option (List (List Int)) :=
  if fdsVar.isPrefixOf text then
    Decimal.readRows '_' ';' 9 text.length (text.drop fdsVar.length)
  else none

theorem described (sys : Sys A) (table : FdTable A) (stdiofds : List Int64) {s : State}
    (h : sys.describeFds table stdiofds = .ok s) :
    ∃ es : List (Entry A), Progress sys (State.start stdiofds) s es ∧
      es.map (fun e => (e.fd, e.f)) = sys.inherited 0 table.fds ∧
      decode s.text = some (es.map Entry.numbers) := by
  have hall := describeFds_comes sys table stdiofds
  rw [h] at hall
  obtain ⟨-, -, es, hprog, hes⟩ := hall
  refine ⟨es, hprog, hes, ?_⟩
  have htext : s.text = fdsVar ++ (es.map Entry.numbers).flatMap (Decimal.row '_' ';') := by
    rw [hprog.text, List.flatMap_map]
    rfl
  have hrows : (es.map Entry.numbers).length ≤
      ((es.map Entry.numbers).flatMap (Decimal.row '_' ';')).length := Decimal.length_le_rows _
  have hlen : (es.map Entry.numbers).length ≤ s.text.length := by
    rw [htext, List.length_append]
    omega
  rw [decode, htext, if_pos (by simp), List.drop_left, ← htext]
  refine Decimal.readRows_rows (by decide) (by decide) _ (fun r hr => ?_) _ hlen
  obtain ⟨e, -, rfl⟩ := List.mem_map.mp hr
  rfl

/-- **The variable says what is handed on**: it reads back as one entry for each descriptor that
is not close-on-exec, in order, with its own numbers and its handles in the creator process, and
the array lists these handles. -/
theorem describe_fds_reads_back (sys : Sys A) (table : FdTable A) (stdiofds : List Int64)
    (s : State) (h : sys.describeFds table stdiofds = .ok s) :
    ∃ es : List (Entry A), es.map (fun e => (e.fd, e.f)) = sys.inherited 0 table.fds ∧
      (∀ e ∈ es, e.Duplicated sys) ∧ decode s.text = some (es.map Entry.numbers) ∧
      s.handles = es.flatMap Entry.array := by
  obtain ⟨es, hprog, hes, hdecode⟩ := described sys table stdiofds h
  exact ⟨es, hes, hprog.duplicated, hdecode, hprog.handles⟩

/-- Standard output is a file with a cursor, standard input is close-on-exec. -/
def twoFds : FdTable Nat where
  fds := [⟨2, 0x80000, 0, 4, none, 0, 0, 0⟩, ⟨2, 1, 0, 8, some 4096, 0, 0, 0⟩]
  int := by decide

/-- Two duplications succeed. -/
def plainSys : Sys Nat where
  kFdEmpty := 0
  kFdReserved := 1
  kFdZip := 5
  kFdEpoll := 6
  oCloexec := 0x80000
  duplicateHandle n _ := if n = 0 then some 100 else if n = 1 then some 104 else none
  mapAt a := if a = 4096 then some 60 else none
  strdup := true
  calloc _ := true
  realloc _ := true

/-- What comes of it. -/
def twoFdsState : State where
  text := "_COSMO_FDS_V2=1_100_2_1_0_104_0_0_0;".toList
  size := 278
  handles := [100, 104]
  stdiofds := [4, 100, 100]
  opened := [104, 100]
  calls := 2

theorem describe_twoFds : plainSys.describeFds twoFds [4, 8, 8] = .ok twoFdsState := by
  rfl

theorem describe_fds_reads_back_two :
    ∃ es : List (Entry Nat), es.map (fun e => (e.fd, e.f)) = plainSys.inherited 0 twoFds.fds ∧
      (∀ e ∈ es, e.Duplicated plainSys) ∧ decode twoFdsState.text = some (es.map Entry.numbers) ∧
      [100, 104] = es.flatMap Entry.array :=
  describe_fds_reads_back plainSys twoFds [4, 8, 8] twoFdsState describe_twoFds

/-- No duplicate is a handle that some descriptor of the table has. -/
def Fresh (sys : Sys A) (table : FdTable A) : Prop :=
  ∀ n h d, sys.duplicateHandle n h = some d → ∀ f ∈ table.fds, f.handle ≠ d

theorem mem_inherited (c : Consts) {fd : Nat} {fds : List (Fd A)} {x : Nat × Fd A}
    (h : x ∈ c.inherited fd fds) : x.2 ∈ fds := by
  induction fds generalizing fd with
  | nil => cases h
  | cons f fds ih =>
    rw [Consts.inherited] at h
    split at h
    · exact List.mem_cons_of_mem f (ih h)
    · rcases List.mem_cons.mp h with rfl | h
      · exact List.mem_cons_self
      · exact List.mem_cons_of_mem f (ih h)

/-- The duplicate of the first descriptor that has the handle `h`, or `h` itself. -/
def duplicateOf (es : List (Entry A)) (h : Int64) : Int64 :=
  match es.find? fun e => e.f.handle = h with
  | some e => e.handle
  | none => h

theorem foldl_redirect_of_ne (es : List (Entry A)) {h : Int64} (hne : ∀ e ∈ es, e.f.handle ≠ h) :
    es.foldl (fun h e => e.redirect h) h = h := by
  induction es with
  | nil => rfl
  | cons e es ih =>
    obtain ⟨he, hes⟩ := List.forall_mem_cons.mp hne
    rw [List.foldl_cons, Entry.redirect, if_neg (Ne.symm he), ih hes]

theorem foldl_redirect (es : List (Entry A)) (h : Int64)
    (hfresh : ∀ e ∈ es, ∀ e' ∈ es, e'.f.handle ≠ e.handle) :
    es.foldl (fun h e => e.redirect h) h = duplicateOf es h := by
  induction es with
  | nil => rfl
  | cons e es ih =>
    rw [List.foldl_cons, Entry.redirect, duplicateOf, List.find?_cons]
    by_cases he : e.f.handle = h
    · -- replaced here, and the duplicate is nobody's handle
      rw [if_pos he.symm, foldl_redirect_of_ne]
      · simp [he]
      · exact fun e' he' => hfresh e List.mem_cons_self e' (List.mem_cons_of_mem e he')
    · rw [if_neg (Ne.symm he), ih fun a ha b hb =>
        hfresh a (List.mem_cons_of_mem e ha) b (List.mem_cons_of_mem e hb)]
      simp [he, duplicateOf]

end ApeShim.DescribeFds
