import ApeShim.Lib.Machine
import ApeShim.Procfs.SysWalks

/-!
The two carriers of a slice of /sys on NT (`shim/procfs/core/sysfs.c`): the tree on disk, written
when the digest of the names has changed, and the walk that an open picks one file from. Both ask the
clock for themselves, and the system may change between any two of their steps.
-/

namespace ApeShim.Slices
open Trace Procfs

/-- What the tree has in a file, and of which adapter. -/
structure Copy where
  val : Text
  luid : Nat
  deriving DecidableEq

variable {κ : Type*} [DecidableEq κ]

/-! ## The tree on disk -/

/-- The file at a place, if there is one. -/
def fileAt (files : List (κ × Copy)) (key : κ) : Option Copy :=
  (files.find? fun f => f.1 = key).map Prod.snd

/-- `mat_emit`; `look` is where the file system finds a name in the slice's directory. -/
def matEmit (look : Text → Option κ) (files : List (κ × Copy)) (e : Emission) : List (κ × Copy) :=
  match look e.rel with
  | none => files
  | some key => (key, ⟨e.val, e.luid⟩) :: files.filter fun f => f.1 ≠ key

/-- A tree written anew. -/
def written (look : Text → Option κ) (es : List Emission) : List (κ × Copy) :=
  es.foldl (matEmit look) []

/-- The names that are digested, in their order. -/
def names (es : List Emission) : List Text := es.map Emission.rel

/-- `pick_emit` over a walk. -/
def pick (es : List Emission) (rel : Text) : Option Emission := es.find? fun e => e.rel = rel

/-! ## The machine -/

/-- The static data of one slice. -/
structure SliceState (κ : Type*) where
  /-- what the walk emits of the data that it has cached -/
  cached : List Emission
  /-- when it read them; 0 for never -/
  read : Nat
  /-- the names the tree was written for; nothing before the first time -/
  digest : Option (List Text)
  /-- the `last` of `ensure_sysfs_slice` -/
  last : Nat
  files : List (κ × Copy)

/-- What goes on under the lock. An open whose file the walk does not emit goes on to the tree, with
the name behind the slice's prefix. -/
inductive Phase
  | idle
  /-- `pc_gen_sysfs` is about to walk -/
  | pick (k : Slice) (rel : Text)
  /-- `ensure_sysfs_slice` is about to ask the clock -/
  | ensure (k : Slice) (open_ : Option Text)
  /-- the walk for the digest -/
  | names (k : Slice) (open_ : Option Text)
  /-- the walk that writes the tree -/
  | write (k : Slice) (open_ : Option Text)

structure State (κ : Type*) where
  /-- `pfs_now_ms` -/
  now : Nat
  world : World
  slice : Slice → SliceState κ
  phase : Phase

inductive Event
  | world (now : Nat) (w : World)
  /-- a stat, a listing, or an open that is not for reading a file -/
  | touch (path : Text)
  | open (path : Text)
  | go

/-- What an open was given. -/
inductive Served
  | value (val : Text)
  | copy (val : Text)
  | absent
  deriving DecidableEq

inductive Obs (κ : Type*)
  /-- the slice was ensured: the tree, and what the walk emits -/
  | ensured (k : Slice) (files : List (κ × Copy)) (es : List Emission)
  /-- the name was opened for reading -/
  | opened (k : Slice) (rel : Text) (served : Served) (files : List (κ × Copy)) (es : List Emission)

namespace State

/-- What a walk has cached after it has asked the clock. -/
def refresh (s : State κ) (k : Slice) : SliceState κ :=
  let c := s.slice k
  if c.read = 0 ∨ k.window ≤ s.now - c.read then { c with cached := s.world.walk k, read := s.now }
  else c

def put (s : State κ) (k : Slice) (c : SliceState κ) (p : Phase) : State κ :=
  { s with slice := Function.update s.slice k c, phase := p }

/-- An ensure within the window does nothing. -/
def throttled (s : State κ) (k : Slice) : Prop :=
  (s.slice k).last ≠ 0 ∧ s.now - (s.slice k).last < k.window

instance (s : State κ) (k : Slice) : Decidable (s.throttled k) := inferInstanceAs (Decidable (_ ∧ _))

/-- The end of an ensure, and the open of the file in the tree that it was for. -/
def finish (look : Text → Option κ) (s : State κ) (k : Slice) (c : SliceState κ)
    (open_ : Option Text) : State κ × List (Obs κ) :=
  (s.put k c .idle,
    (open_.toList.map fun rel =>
      .opened k rel (((look rel).bind (fileAt c.files)).elim .absent fun x => .copy x.val) c.files
        c.cached) ++
      [.ensured k c.files c.cached])

def go (look : Text → Option κ) (s : State κ) : Option (State κ × List (Obs κ)) :=
  match s.phase with
  | .idle => none
  | .pick k rel =>
    let c := s.refresh k
    match Slices.pick c.cached rel with
    | some e => some (s.put k c .idle, [.opened k rel (.value e.val) c.files c.cached])
    | none => some (s.put k c (.ensure k (some rel)), [])
  | .ensure k open_ =>
    if s.throttled k then some (s.finish look k (s.slice k) open_)
    else some (s.put k { s.slice k with last := s.now } (.names k open_), [])
  | .names k open_ =>
    let c := s.refresh k
    let d := Slices.names c.cached
    if c.digest = some d then some (s.finish look k c open_)
    else some (s.put k { c with digest := some d, files := [] } (.write k open_), [])
  | .write k open_ =>
    let c := s.refresh k
    some (s.finish look k { c with files := written look c.cached } open_)

def step (look : Text → Option κ) (s : State κ) : Event → Option (State κ × List (Obs κ))
  | .world now w => if s.now ≤ now then some ({ s with now := now, world := w }, []) else none
  | .touch path =>
    match s.phase, Slice.all.find? fun k => (k.rest path).isSome with
    | .idle, some k => some ({ s with phase := .ensure k none }, [])
    | _, _ => none
  | .open path =>
    match s.phase, Slice.all.find? fun k => (k.rest path).any (· ≠ []) with
    | .idle, some k => some ({ s with phase := .pick k (path.drop (k.pre.length + 1)) }, [])
    | _, _ => none
  | .go => s.go look

def init (w : World) : State κ where
  now := 0
  world := w
  slice _ := ⟨[], 0, none, 0, []⟩
  phase := .idle

end State

def machine (look : Text → Option κ) (w : World) : Machine (State κ) Event (Obs κ) :=
  ⟨.init w, State.step look⟩

/-! ## Agreement -/

/-- The tree has a file for every name that the walk emits, and no other, and the file is of the
adapter that an open of the name is served from. -/
structure Agrees (look : Text → Option κ) (files : List (κ × Copy)) (es : List Emission) : Prop where
  found : ∀ e ∈ es, pick es e.rel = some e →
    ∃ key ∈ look e.rel, ∃ x ∈ fileAt files key, x.luid = e.luid
  only : ∀ f ∈ files, ∃ e ∈ es, look e.rel = some f.1

/-- The name is that of a file of the walk, or of one in the tree. -/
def NamesFile (look : Text → Option κ) (files : List (κ × Copy)) (es : List Emission)
    (rel : Text) : Prop :=
  ∃ key ∈ look rel, (∃ e ∈ es, look e.rel = some key) ∨ ∃ f ∈ files, f.1 = key

/-- After an ensure the carriers agree, and an open that names a file is given the value that the walk
emits for it. -/
def Obs.Faithful (look : Text → Option κ) : Obs κ → Prop
  | .ensured _ files es => Agrees look files es
  | .opened _ rel served files es => NamesFile look files es rel →
      ∃ e ∈ es, look e.rel = look rel ∧ served = .value e.val

/-! ## What keeps them together -/

/-- None of these is found where the name is. -/
def Unnamed (look : Text → Option κ) (es : List Emission) (rel : Text) : Prop :=
  ∀ key ∈ look rel, ∀ e ∈ es, look e.rel ≠ some key

/-- The name is spelled as the walk emits it, unless it names none of its files. -/
def Spelled (look : Text → Option κ) (es : List Emission) (rel : Text) : Prop :=
  rel ∈ names es ∨ Unnamed look es rel

/-- Every file has a place in the tree, and those of two adapters have two. -/
structure Separate (look : Text → Option κ) (es : List Emission) : Prop where
  found : ∀ e ∈ es, look e.rel ≠ none
  apart : ∀ e ∈ es, ∀ e' ∈ es, look e.rel = look e'.rel → e.luid = e'.luid

/-- The names are those that were digested. -/
def SameNames (digest : Option (List Text)) (es : List Emission) : Prop :=
  ∀ d ∈ digest, names es ⊆ d ∧ d ⊆ names es

/-- The files in the tree are of the adapters that have their names. -/
def SameAdapters (look : Text → Option κ) (files : List (κ × Copy)) (es : List Emission) : Prop :=
  ∀ e ∈ es, pick es e.rel = some e → ∀ key ∈ look e.rel, ∀ x ∈ fileAt files key, x.luid = e.luid

/-- What a walk must find, by what it is for. -/
def Steady (look : Text → Option κ) (s : State κ) : Phase → Prop
  | .pick k rel =>
    let c := s.refresh k
    Spelled look c.cached rel ∧
      (s.throttled k → SameNames c.digest c.cached ∧ SameAdapters look c.files c.cached)
  | .names k open_ =>
    let c := s.refresh k
    (∀ rel ∈ open_, Unnamed look c.cached rel) ∧
      (c.digest = some (Slices.names c.cached) → SameAdapters look c.files c.cached)
  | .write k open_ =>
    let c := s.refresh k
    (∀ rel ∈ open_, Unnamed look c.cached rel) ∧ SameNames c.digest c.cached ∧
      Separate look c.cached
  | .idle | .ensure _ _ => True

def Keeps (look : Text → Option κ) (s : State κ) : Event → Prop
  | .go => Steady look s s.phase
  | _ => True

section Computed
variable (look : Text → Option κ) (files : List (κ × Copy)) (es : List Emission) (rel : Text)

instance : Decidable (Agrees look files es) :=
  decidable_of_iff ((∀ e ∈ es, pick es e.rel = some e →
      ∃ key ∈ look e.rel, ∃ x ∈ fileAt files key, x.luid = e.luid) ∧
    ∀ f ∈ files, ∃ e ∈ es, look e.rel = some f.1) ⟨fun h => ⟨h.1, h.2⟩, fun h => ⟨h.found, h.only⟩⟩

instance : Decidable (NamesFile look files es rel) :=
  inferInstanceAs (Decidable (∃ key ∈ look rel,
    (∃ e ∈ es, look e.rel = some key) ∨ ∃ f ∈ files, f.1 = key))

instance : (o : Obs κ) → Decidable (o.Faithful look)
  | .ensured _ files es => inferInstanceAs (Decidable (Agrees look files es))
  | .opened _ rel served files es => inferInstanceAs (Decidable (NamesFile look files es rel →
      ∃ e ∈ es, look e.rel = look rel ∧ served = .value e.val))

instance : Decidable (Unnamed look es rel) :=
  inferInstanceAs (Decidable (∀ key ∈ look rel, ∀ e ∈ es, look e.rel ≠ some key))

instance : Decidable (Spelled look es rel) := inferInstanceAs (Decidable (_ ∨ _))

instance : Decidable (Separate look es) :=
  decidable_of_iff ((∀ e ∈ es, look e.rel ≠ none) ∧
    ∀ e ∈ es, ∀ e' ∈ es, look e.rel = look e'.rel → e.luid = e'.luid)
    ⟨fun h => ⟨h.1, h.2⟩, fun h => ⟨h.found, h.apart⟩⟩

instance (digest : Option (List Text)) : Decidable (SameNames digest es) :=
  inferInstanceAs (Decidable (∀ d ∈ digest, names es ⊆ d ∧ d ⊆ names es))

instance : Decidable (SameAdapters look files es) :=
  inferInstanceAs (Decidable (∀ e ∈ es, pick es e.rel = some e →
    ∀ key ∈ look e.rel, ∀ x ∈ fileAt files key, x.luid = e.luid))

instance (s : State κ) : (p : Phase) → Decidable (Steady look s p)
  | .pick _ _ | .names _ _ | .write _ _ => inferInstanceAs (Decidable (_ ∧ _))
  | .idle | .ensure _ _ => inferInstanceAs (Decidable True)

instance (s : State κ) : (a : Event) → Decidable (Keeps look s a)
  | .go => inferInstanceAs (Decidable (Steady look s s.phase))
  | .world _ _ | .touch _ | .open _ => inferInstanceAs (Decidable True)

end Computed

/-! ## Writing the tree -/

section Files
variable {look : Text → Option κ} {files : List (κ × Copy)} {es : List Emission}

theorem fileAt_matEmit (look : Text → Option κ) (files : List (κ × Copy)) (e : Emission) (key : κ) :
    fileAt (matEmit look files e) key =
      if look e.rel = some key then some ⟨e.val, e.luid⟩ else fileAt files key := by
  cases hl : look e.rel with
  | none => simp [matEmit, hl]
  | some at_ =>
    by_cases hk : at_ = key
    · simp [matEmit, hl, hk, fileAt]
    · have hkeep (f : κ × Copy) : (f.1 ≠ at_ ∧ f.1 = key) ↔ f.1 = key :=
        and_iff_right_of_imp fun hf => hf ▸ Ne.symm hk
      simp only [matEmit, hl, fileAt, List.find?_cons, hk, decide_false, List.find?_filter,
        Option.some.injEq, if_false, decide_eq_true_eq, hkeep]

theorem mem_of_fileAt {key : κ} {x : Copy} (h : fileAt files key = some x) : (key, x) ∈ files := by
  obtain ⟨f, hf, rfl⟩ := Option.map_eq_some_iff.mp h
  have hkey : f.1 = key := by simpa using List.find?_some hf
  exact hkey ▸ List.mem_of_find?_eq_some hf

theorem written_snoc (look : Text → Option κ) (es : List Emission) (e : Emission) :
    written look (es ++ [e]) = matEmit look (written look es) e := by
  rw [written, List.foldl_append]
  rfl

/-- A file of the tree is one that was emitted. -/
theorem mem_written {f : κ × Copy} (h : f ∈ written look es) :
    ∃ e ∈ es, look e.rel = some f.1 ∧ f.2 = ⟨e.val, e.luid⟩ := by
  induction es using List.reverseRecOn with
  | nil => cases h
  | append_singleton es e ih =>
    have hold : f ∈ written look es → ∃ e' ∈ es ++ [e], look e'.rel = some f.1 ∧
        f.2 = ⟨e'.val, e'.luid⟩ := fun h =>
      let ⟨e', he', hf⟩ := ih h
      ⟨e', List.mem_append_left _ he', hf⟩
    rw [written_snoc, matEmit] at h
    cases hl : look e.rel with
    | none => exact hold (by simpa only [hl] using h)
    | some key =>
      simp only [hl, List.mem_cons, List.mem_filter] at h
      obtain rfl | ⟨h, -⟩ := h
      · exact ⟨e, by simp, hl, rfl⟩
      · exact hold h

/-- Whatever is emitted to a place, the tree has a file there. -/
theorem fileAt_written_ne {e : Emission} {key : κ} (he : e ∈ es) (hl : look e.rel = some key) :
    fileAt (written look es) key ≠ none := by
  induction es using List.reverseRecOn with
  | nil => cases he
  | append_singleton es e' ih =>
    rw [written_snoc, fileAt_matEmit]
    split
    · simp
    · rename_i hother
      rcases List.mem_append.mp he with he | he
      · exact ih he
      · rw [List.mem_singleton.mp he] at hl
        exact absurd hl hother

end Files

/-! ## The names that the tree was written for -/

theorem mem_names {es : List Emission} {rel : Text} : rel ∈ names es ↔ ∃ e ∈ es, e.rel = rel :=
  List.mem_map

theorem pick_eq_some {es : List Emission} {rel : Text} {e : Emission} (h : pick es rel = some e) :
    e ∈ es ∧ e.rel = rel :=
  ⟨List.mem_of_find?_eq_some h, by simpa using List.find?_some h⟩

theorem pick_eq_none {es : List Emission} {rel : Text} (h : pick es rel = none) :
    rel ∉ names es := by
  rw [mem_names]
  rintro ⟨e, he, hrel⟩
  simpa [hrel] using List.find?_eq_none.mp h e he

/-- The tree has a file for each of these names, and no other. -/
structure Keyed (look : Text → Option κ) (d : List Text) (files : List (κ × Copy)) : Prop where
  found : ∀ rel ∈ d, ∃ key, look rel = some key ∧ fileAt files key ≠ none
  only : ∀ f ∈ files, ∃ rel ∈ d, look rel = some f.1

section Keyed
variable {look : Text → Option κ} {files : List (κ × Copy)} {es : List Emission} {d : List Text}

theorem Keyed.agrees (h : Keyed look d files) (hn : names es ⊆ d ∧ d ⊆ names es)
    (ha : SameAdapters look files es) : Agrees look files es where
  found e he hfirst := by
    have hrel : e.rel ∈ d := hn.1 (mem_names.mpr ⟨e, he, rfl⟩)
    obtain ⟨key, hkey, hfile⟩ := h.found e.rel hrel
    obtain ⟨x, hx⟩ := Option.ne_none_iff_exists'.mp hfile
    exact ⟨key, hkey, x, hx, ha e he hfirst key hkey x hx⟩
  only f hf := by
    obtain ⟨rel, hrel, hkey⟩ := h.only f hf
    obtain ⟨e, he, rfl⟩ := mem_names.mp (hn.2 hrel)
    exact ⟨e, he, hkey⟩

theorem Keyed.congr (h : Keyed look (names es) files) (hn : names es ⊆ d ∧ d ⊆ names es) :
    Keyed look d files where
  found rel hrel := h.found rel (hn.2 hrel)
  only f hf := by
    obtain ⟨rel, hrel, hkey⟩ := h.only f hf
    exact ⟨rel, hn.1 hrel, hkey⟩

theorem Separate.keyed (hs : Separate look es) : Keyed look (names es) (written look es) where
  found rel hrel := by
    obtain ⟨e, he, rfl⟩ := mem_names.mp hrel
    obtain ⟨key, hkey⟩ := Option.ne_none_iff_exists'.mp (hs.found e he)
    exact ⟨key, hkey, fileAt_written_ne he hkey⟩
  only f hf := by
    obtain ⟨e, he, hkey, -⟩ := mem_written hf
    exact ⟨e.rel, mem_names.mpr ⟨e, he, rfl⟩, hkey⟩

/-- First match and last write are of one adapter where no two adapters' files have one place. -/
theorem Separate.sameAdapters (hs : Separate look es) :
    SameAdapters look (written look es) es := by
  intro e he _ key hkey x hx
  obtain ⟨e', he', hkey', hval⟩ := mem_written (mem_of_fileAt hx)
  have hluid : e.luid = e'.luid := hs.apart e he e' he' (hkey.trans hkey'.symm)
  simp only at hval
  rw [hval, hluid]

/-- An open that names no file of the walk names none of a tree that agrees with it. -/
theorem Agrees.not_namesFile {rel : Text} (h : Agrees look files es) (hu : Unnamed look es rel) :
    ¬ NamesFile look files es rel := by
  rintro ⟨key, hkey, ⟨e, he, hname⟩ | ⟨f, hf, rfl⟩⟩
  · exact hu key hkey e he hname
  · obtain ⟨e, he, hname⟩ := h.only f hf
    exact hu f.1 hkey e he hname

end Keyed

/-! ## The invariant -/

/-- What holds of a slice while the phase is `p`. -/
structure Sliced (look : Text → Option κ) (now : Nat) (k : Slice) (c : SliceState κ) (p : Phase) :
    Prop where
  keyed : ∀ d, c.digest = some d → (∀ o, p ≠ .write k o) → Keyed look d c.files
  digested : c.last ≠ 0 → (∀ o, p ≠ .names k o) → c.digest ≠ none
  agrees : c.last ≠ 0 ∧ now - c.last < k.window → (∀ o, p ≠ .names k o) → (∀ o, p ≠ .write k o) →
    Agrees look c.files c.cached
  unnamed : ∀ rel, p = .ensure k (some rel) → Unnamed look c.cached rel

def State.Sound (look : Text → Option κ) (s : State κ) : Prop :=
  ∀ k, Sliced look s.now k (s.slice k) s.phase

section Refresh
variable {κ : Type*}

/-- A refresh changes only what is cached and when it was read. -/
theorem State.refresh_eq (s : State κ) (k : Slice) :
    ∃ es t, s.refresh k = { s.slice k with cached := es, read := t } := by
  rw [State.refresh]
  split
  · exact ⟨_, _, rfl⟩
  · exact ⟨_, _, rfl⟩

@[simp] theorem State.refresh_digest (s : State κ) (k : Slice) :
    (s.refresh k).digest = (s.slice k).digest := by
  obtain ⟨es, t, h⟩ := s.refresh_eq k
  rw [h]

@[simp] theorem State.refresh_last (s : State κ) (k : Slice) :
    (s.refresh k).last = (s.slice k).last := by
  obtain ⟨es, t, h⟩ := s.refresh_eq k
  rw [h]

@[simp] theorem State.refresh_files (s : State κ) (k : Slice) :
    (s.refresh k).files = (s.slice k).files := by
  obtain ⟨es, t, h⟩ := s.refresh_eq k
  rw [h]

end Refresh

section Sound
variable {look : Text → Option κ} {s : State κ} {k : Slice} {c : SliceState κ} {p : Phase}
  {now : Nat}

/-- A slice that no walk is on does not mind what begins. -/
theorem Sliced.enter {p' : Phase} (h : Sliced look now k c p) (hn : ∀ o, p ≠ .names k o)
    (hw : ∀ o, p ≠ .write k o) (hu : ∀ rel, p' = .ensure k (some rel) → Unnamed look c.cached rel) :
    Sliced look now k c p' where
  keyed d hd _ := h.keyed d hd hw
  digested hlast _ := h.digested hlast hn
  agrees ht _ _ := h.agrees ht hn hw
  unnamed := hu

theorem Sliced.later {now' : Nat} (h : Sliced look now k c p) (hle : now ≤ now') :
    Sliced look now' k c p where
  keyed := h.keyed
  digested := h.digested
  agrees ht := h.agrees ⟨ht.1, lt_of_le_of_lt (Nat.sub_le_sub_right hle _) ht.2⟩
  unnamed := h.unnamed

theorem Sliced.idle (hk : ∀ d, c.digest = some d → Keyed look d c.files)
    (hd : c.last ≠ 0 → c.digest ≠ none) (ha : Agrees look c.files c.cached) :
    Sliced look now k c .idle where
  keyed d h _ := hk d h
  digested h _ := hd h
  agrees _ _ _ := ha
  unnamed _ h := nomatch h

/-- The slice that the phase is about. -/
def Phase.slice : Phase → Option Slice
  | .idle => none
  | .pick k _ | .ensure k _ | .names k _ | .write k _ => some k

/-- The slices that the phase is not about are left as they are. -/
theorem State.Sound.put (h : s.Sound look) (hs : s.phase.slice = some k)
    (hp : p.slice = some k ∨ p.slice = none) (hc : Sliced look s.now k c p) :
    (s.put k c p).Sound look := by
  intro k'
  by_cases hk : k' = k
  · subst hk
    simpa [State.put] using hc
  · have hslice : (s.put k c p).slice k' = s.slice k' := by simp [State.put, hk]
    have hother (o : Phase) (ho : o.slice = some k') : s.phase ≠ o := by
      rintro hphase
      rw [hphase, ho] at hs
      exact hk (Option.some.inj hs)
    rw [hslice]
    refine (h k').enter (fun o => hother _ rfl) (fun o => hother _ rfl) fun rel hrel => ?_
    have hp' : p = .ensure k' (some rel) := hrel
    rcases hp with hp | hp
    · rw [hp'] at hp
      exact absurd (Option.some.inj hp) hk
    · rw [hp'] at hp
      cases hp

/-! ## The steps -/

/-- After the walk of an open: inside the window the names and the adapters are as they were. -/
theorem Sliced.refreshed {rel : Text} (h : Sliced look s.now k (s.slice k) (.pick k rel))
    (hn : s.throttled k → SameNames (s.refresh k).digest (s.refresh k).cached ∧
      SameAdapters look (s.refresh k).files (s.refresh k).cached)
    (hu : ∀ rel, p = .ensure k (some rel) → Unnamed look (s.refresh k).cached rel) :
    Sliced look s.now k (s.refresh k) p := by
  have hkeyed (d) (hd : (s.slice k).digest = some d) : Keyed look d (s.slice k).files :=
    h.keyed d hd nofun
  refine ⟨fun d hd _ => ?_, fun hlast _ => ?_, fun ht _ _ => ?_, hu⟩
  · rw [State.refresh_files]
    exact hkeyed d (State.refresh_digest s k ▸ hd)
  · rw [State.refresh_digest]
    exact h.digested (State.refresh_last s k ▸ hlast) nofun
  · rw [State.refresh_last] at ht
    obtain ⟨hnames, hadapters⟩ := hn ht
    obtain ⟨d, hd⟩ := Option.ne_none_iff_exists'.mp (h.digested ht.1 nofun)
    rw [State.refresh_files] at hadapters ⊢
    exact (hkeyed d hd).agrees (hnames d (by rw [State.refresh_digest, hd]; rfl)) hadapters

/-- The end of an ensure whose tree agrees with what is cached. -/
theorem State.Sound.finish {open_ : Option Text} (h : s.Sound look) (hs : s.phase.slice = some k)
    (hk : ∀ d, c.digest = some d → Keyed look d c.files) (hd : c.last ≠ 0 → c.digest ≠ none)
    (ha : Agrees look c.files c.cached)
    (hu : ∀ rel, open_ = some rel → Unnamed look c.cached rel) :
    (s.finish look k c open_).1.Sound look ∧
      ∀ o ∈ (s.finish look k c open_).2, o.Faithful look := by
  refine ⟨h.put hs (.inr rfl) (.idle hk hd ha), fun o ho => ?_⟩
  simp only [State.finish, List.mem_append, List.mem_map, Option.mem_toList,
    List.mem_singleton] at ho
  obtain ⟨rel, hrel, rfl⟩ | rfl := ho
  · exact fun hnames => absurd hnames (ha.not_namesFile (hu rel hrel))
  · exact ha

/-- **One step of a walk.** -/
theorem State.Sound.go {s' : State κ} {out : List (Obs κ)} (h : s.Sound look)
    (hok : Steady look s s.phase) (hstep : s.go look = some (s', out)) :
    s'.Sound look ∧ ∀ o ∈ out, o.Faithful look := by
  rw [State.go] at hstep
  cases hphase : s.phase with
  | idle =>
    rw [hphase] at hstep
    cases hstep
  | pick k rel =>
    have hc := h k
    rw [hphase] at hc hstep
    rw [hphase] at hok
    obtain ⟨hspelled, hsame⟩ := hok
    have hslice : s.phase.slice = some k := by rw [hphase]; rfl
    cases hpick : Slices.pick (s.refresh k).cached rel with
    | some e =>
      simp only [hpick, Option.some.injEq, Prod.mk.injEq] at hstep
      obtain ⟨rfl, rfl⟩ := hstep
      refine ⟨h.put hslice (.inr rfl) (hc.refreshed hsame nofun), fun o ho => ?_⟩
      rw [List.mem_singleton.mp ho]
      obtain ⟨he, hrel⟩ := pick_eq_some hpick
      exact fun _ => ⟨e, he, by rw [hrel], rfl⟩
    | none =>
      simp only [hpick, Option.some.injEq, Prod.mk.injEq] at hstep
      obtain ⟨rfl, rfl⟩ := hstep
      have hunnamed : Unnamed look (s.refresh k).cached rel :=
        hspelled.resolve_left (pick_eq_none hpick)
      refine ⟨h.put hslice (.inl rfl) (hc.refreshed hsame fun rel' hrel => ?_), nofun⟩
      cases hrel
      exact hunnamed
  | ensure k open_ =>
    have hc := h k
    rw [hphase] at hc hstep
    have hslice : s.phase.slice = some k := by rw [hphase]; rfl
    by_cases ht : s.throttled k
    · simp only [if_pos ht, Option.some.injEq] at hstep
      rw [← Prod.mk.eta (p := s.finish look k (s.slice k) open_), Prod.mk.injEq] at hstep
      obtain ⟨rfl, rfl⟩ := hstep
      exact h.finish hslice (fun d hd => hc.keyed d hd nofun) (fun hlast => hc.digested hlast nofun)
        (hc.agrees ht nofun nofun) fun rel hrel => hc.unnamed rel (by rw [hrel])
    · simp only [if_neg ht, Option.some.injEq, Prod.mk.injEq] at hstep
      obtain ⟨rfl, rfl⟩ := hstep
      refine ⟨h.put hslice (.inl rfl) ⟨fun d hd _ => hc.keyed d hd nofun, fun _ hn => ?_,
        fun _ hn _ => ?_, nofun⟩, nofun⟩
      · exact absurd rfl (hn open_)
      · exact absurd rfl (hn open_)
  | names k open_ =>
    have hc := h k
    rw [hphase] at hc hstep
    rw [hphase] at hok
    obtain ⟨hunnamed, hsame⟩ := hok
    have hslice : s.phase.slice = some k := by rw [hphase]; rfl
    by_cases hd : (s.refresh k).digest = some (Slices.names (s.refresh k).cached)
    · simp only [if_pos hd, Option.some.injEq] at hstep
      rw [← Prod.mk.eta (p := s.finish look k (s.refresh k) open_), Prod.mk.injEq] at hstep
      obtain ⟨rfl, rfl⟩ := hstep
      have hkeyed (d) (hd : (s.refresh k).digest = some d) : Keyed look d (s.refresh k).files := by
        rw [State.refresh_files]
        exact hc.keyed d (State.refresh_digest s k ▸ hd) nofun
      exact h.finish hslice hkeyed (fun _ => hd ▸ Option.some_ne_none _)
        ((hkeyed _ hd).agrees ⟨List.Subset.refl _, List.Subset.refl _⟩ (hsame hd)) hunnamed
    · simp only [if_neg hd, Option.some.injEq, Prod.mk.injEq] at hstep
      obtain ⟨rfl, rfl⟩ := hstep
      refine ⟨h.put hslice (.inl rfl) ⟨fun _ _ hw => ?_, fun _ _ => Option.some_ne_none _,
        fun _ _ hw => ?_, nofun⟩, nofun⟩
      · exact absurd rfl (hw open_)
      · exact absurd rfl (hw open_)
  | write k open_ =>
    have hc := h k
    rw [hphase] at hc hstep
    rw [hphase] at hok
    obtain ⟨hunnamed, hnames, hsep⟩ := hok
    have hslice : s.phase.slice = some k := by rw [hphase]; rfl
    have hfiles : Keyed look (Slices.names (s.refresh k).cached)
        (written look (s.refresh k).cached) := hsep.keyed
    simp only [Option.some.injEq, State.finish, Prod.mk.injEq] at hstep
    obtain ⟨rfl, rfl⟩ := hstep
    exact h.finish hslice (fun d hd => hfiles.congr (hnames d hd))
      (fun hlast => State.refresh_digest s k ▸ hc.digested (State.refresh_last s k ▸ hlast) nofun)
      (hfiles.agrees ⟨List.Subset.refl _, List.Subset.refl _⟩ hsep.sameAdapters) hunnamed

/-- **One step**, whatever it is. -/
theorem State.Sound.step {s' : State κ} {out : List (Obs κ)} {a : Event} (h : s.Sound look)
    (hok : Keeps look s a) (hstep : s.step look a = some (s', out)) :
    s'.Sound look ∧ ∀ o ∈ out, o.Faithful look := by
  cases a with
  | world now w =>
    simp only [State.step, Option.ite_none_right_eq_some, Option.some.injEq, Prod.mk.injEq] at hstep
    obtain ⟨hle, rfl, rfl⟩ := hstep
    exact ⟨fun k => (h k).later hle, nofun⟩
  | touch path =>
    rw [State.step] at hstep
    split at hstep
    · rename_i hphase _
      cases hstep
      exact ⟨fun k => (hphase ▸ h k).enter nofun nofun nofun, nofun⟩
    · cases hstep
  | «open» path =>
    rw [State.step] at hstep
    split at hstep
    · rename_i hphase _
      cases hstep
      exact ⟨fun k => (hphase ▸ h k).enter nofun nofun nofun, nofun⟩
    · cases hstep
  | go => exact h.go hok hstep

theorem State.init_sound (look : Text → Option κ) (w : World) : (State.init w).Sound look := fun _ =>
  ⟨nofun, fun h => absurd rfl h, fun h => absurd rfl h.1, nofun⟩

end Sound

/-! ## Every run -/

/-- Along every run whose walks find what they should, the carriers agree after every ensure, and
every open that names a file is given the value that the walk emits for it. -/
theorem slices_faithful (look : Text → Option κ) (w : World) {s : State κ} {log : List (Obs κ)}
    (h : (machine look w).Run (Keeps look) s log) : ∀ o ∈ log, o.Faithful look := by
  refine (h.invariant (P := fun s log => s.Sound look ∧ ∀ o ∈ log, o.Faithful look)
    ⟨State.init_sound look w, nofun⟩ ?_).2
  intro s log a s' out hs hok hstep
  obtain ⟨hsound, hout⟩ := hs.1.step hok hstep
  exact ⟨hsound, List.forall_mem_append.mpr ⟨hout, hs.2⟩⟩


/-! ## Runs -/

/-- How the file system of NT finds a name: whatever the case of its letters and however many its
separators. -/
def ntLook (rel : Text) : Option (List Text) :=
  some (((rel.map Char.toLower).splitOnP (· = '/')).filter (· ≠ []))

/-- An adapter that is up, with the row that it needs. -/
def adapter (luid : Nat) (name : List UInt16) (mtu : UInt32) : Adapter where
  luid := luid
  ifIndex := 1
  friendlyName := some name
  mtu := mtu
  operStatus := 1
  physicalAddress := []
  transmitLinkSpeed := 0

def withAdapters (adapters : List Adapter) : World where
  adapters := adapters
  rows := [⟨1, ⟨0, 0, 0, 0, 0⟩, ⟨0, 0, 0, 0, 0⟩⟩]
  battery := none
  cpus := ⟨[], []⟩

/-- A listing and then an open, of one adapter. -/
theorem slices_faithful_lan : ∃ s log,
    (machine ntLook (withAdapters [])).Run (Keeps ntLook) s log ∧ log.length = 2 ∧
      ∀ o ∈ log, o.Faithful ntLook := by
  obtain ⟨s, log, hrun, hlog⟩ := Machine.Run.extend (m := machine ntLook (withAdapters [])) .start
    (fun s a => decide (Keeps ntLook s a)) (fun _ _ h => of_decide_eq_true h)
    [.world 300 (withAdapters [adapter 1 [76] 1500]), .touch "/sys/class/net".toList, .go, .go, .go,
      .open "/sys/class/net/L/mtu".toList, .go]
    (fun _ log => log.length = 2) (by decide +kernel)
  exact ⟨s, log, hrun, of_decide_eq_true hlog, slices_faithful ntLook _ hrun⟩

/-- The run is one of the machine, and not all that it shows is faithful. -/
def Drifts (labels : List Event) : Prop :=
  ∃ s log, (machine ntLook (withAdapters [])).replay (fun _ _ => true) (.init (withAdapters [])) []
      labels = some (s, log) ∧
    (machine ntLook (withAdapters [])).Run anyStep s log ∧ ∃ o ∈ log, ¬ o.Faithful ntLook

theorem Drifts.of_replay {labels : List Event}
    (h : ((machine ntLook (withAdapters [])).replay (fun _ _ => true) (.init (withAdapters [])) []
      labels).any (fun r => decide (∃ o ∈ r.2, ¬ o.Faithful ntLook)) = true) : Drifts labels := by
  obtain ⟨r, hr, hlog⟩ := (Option.any_eq_true _ _).mp h
  exact ⟨r.1, r.2, hr, Machine.Run.of_replay (fun _ _ _ => trivial) labels .start hr,
    of_decide_eq_true hlog⟩

/-- Two adapters of one name, and a listing: the tree has the last, and an open is served from the
first. -/
def collided : List Event :=
  [.world 300 (withAdapters [adapter 1 [76] 1500, adapter 2 [76] 1500]),
    .touch "/sys/class/net".toList, .go, .go, .go]

/-- A listing, another MTU, and an open with a separator too many: it is given the old one. -/
def slashed : List Event :=
  [.world 300 (withAdapters [adapter 1 [76] 1500]), .touch "/sys/class/net".toList, .go, .go, .go,
    .world 900 (withAdapters [adapter 1 [76] 9000]), .open "/sys/class/net/L//mtu".toList, .go, .go,
    .go]

/-- An open, a listing before the walk reads the adapters anew, an open after it has, and a listing
within the window of the first: it has the old names. -/
def outdated : List Event :=
  [.world 300 (withAdapters [adapter 1 [76] 1500]), .open "/sys/class/net/L/mtu".toList, .go,
    .world 500 (withAdapters [adapter 1 [77] 1500]), .touch "/sys/class/net".toList, .go, .go, .go,
    .world 600 (withAdapters [adapter 1 [77] 1500]), .open "/sys/class/net/M/mtu".toList, .go,
    .touch "/sys/class/net".toList, .go]

theorem slices_drift : Drifts collided ∧ Drifts slashed ∧ Drifts outdated :=
  ⟨.of_replay (by decide +kernel), .of_replay (by decide +kernel), .of_replay (by decide +kernel)⟩

end ApeShim.Slices
