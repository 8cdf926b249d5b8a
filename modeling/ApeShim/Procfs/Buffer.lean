import ApeShim.Lib.Store

/-!
The buffer that the generators of the /proc emulation write into (`struct pfs_buf` of
`shim/procfs/core/tree.c`): it grows by doubling, and once an allocation has failed it takes nothing
more. A store past the end of the allocation has no result.
-/

namespace ApeShim.Procfs
open Store

/-- `struct pfs_buf`; the capacity is the length of the allocation. -/
structure Buf where
  p : List Char
  n : Nat
  oom : Bool

namespace Buf

def empty : Buf := ⟨[], 0, false⟩

/-- `while (cap < b->n + extra) cap *= 2;` -/
def growCap (cap need : Nat) : Nat :=
  if 0 < cap ∧ cap < need then growCap (cap * 2) need else cap
termination_by need - cap

/-- What `realloc` does, if it is called: it fails, or the new part of the allocation is filled with
anything. -/
abbrev Alloc := Option Char

def reserve (a : Alloc) (b : Buf) (extra : Nat) : Buf :=
  if b.oom ∨ b.n + extra ≤ b.p.length then b
  else
    match a with
    | none => { b with oom := true }
    | some junk =>
        let cap := growCap (if b.p.length ≠ 0 then b.p.length * 2 else 1024) (b.n + extra)
        { b with p := b.p ++ List.replicate (cap - b.p.length) junk }

/-- The rest of `pfs_put` and `pfs_printf`: `more` is stored behind `data` and not counted. -/
def append (a : Alloc) (b : Buf) (data more : List Char) : Option Buf :=
  let b := b.reserve a (data.length + more.length)
  if b.oom then some b
  else do
    let p ← store b.p b.n (data ++ more)
    some { b with p, n := b.n + data.length }

/-- `pfs_put` -/
def put (a : Alloc) (b : Buf) (data : List Char) : Option Buf := b.append a data []

/-- `pfs_printf`; `text` is what the format comes to, and `vsnprintf` puts a NUL behind it. -/
def printf (a : Alloc) (b : Buf) (text : List Char) : Option Buf :=
  if 0 < text.length then b.append a text ['\x00'] else some b

/-- One call of a generator. -/
inductive Op
  | put (data : List Char)
  | printf (text : List Char)

def Op.text : Op → List Char
  | .put data => data
  | .printf text => text

def step (b : Buf) : Op × Alloc → Option Buf
  | (.put data, a) => b.put a data
  | (.printf text, a) => b.printf a text

def run : Buf → List (Op × Alloc) → Option Buf
  | b, [] => some b
  | b, op :: ops => (b.step op).bind (run · ops)

/-- What has been written. -/
def content (b : Buf) : List Char := b.p.take b.n

/-- `gen_vpath`, `gen_to_file`: the text of a generator that says `ok`, if it is whole. -/
def served (ok : Bool) (b : Buf) : Option (List Char) := if ok ∧ ¬b.oom then some b.content else none

/-! ## Growing -/

theorem le_growCap {cap need : Nat} (h : 0 < cap) : need ≤ growCap cap need := by
  fun_induction growCap cap need with
  | case1 cap hgrow ih => exact ih (by omega)
  | case2 cap hstop => omega

/-- The written part lies in the allocation. -/
def Fits (b : Buf) : Prop := b.n ≤ b.p.length

variable {a : Alloc} {b : Buf}

/-- What a step does to a buffer: `text` comes behind what is written, or, where memory has run
out, nothing does, now or later. -/
structure Writes (a : Alloc) (b b' : Buf) (text : List Char) : Prop where
  fits : b'.Fits
  latched : b.oom = true → b'.oom = true
  wrote : b'.oom = false → b'.content = b.content ++ text
  kept : b'.oom = true → b'.content = b.content
  why : b'.oom = true → b.oom = true ∨ a = none

theorem reserve_writes (a : Alloc) (h : b.Fits) (extra : Nat) :
    Writes a b (b.reserve a extra) [] ∧ (b.reserve a extra).n = b.n ∧
      ((b.reserve a extra).oom = false → b.n + extra ≤ (b.reserve a extra).p.length) := by
  have hsame : b.content = b.content ++ [] := (List.append_nil _).symm
  by_cases hroom : b.oom = true ∨ b.n + extra ≤ b.p.length
  · have hreserve : b.reserve a extra = b := by
      cases a <;> exact if_pos hroom
    rw [hreserve]
    refine ⟨⟨h, id, fun _ => hsame, fun _ => rfl, Or.inl⟩, rfl, fun hoom => ?_⟩
    rcases hroom with hlatched | hroom
    · cases hlatched.symm.trans hoom
    · exact hroom
  · cases a with
    | none =>
        have hreserve : b.reserve none extra = { b with oom := true } := if_neg hroom
        rw [hreserve]
        exact ⟨⟨h, fun _ => rfl, Bool.noConfusion, fun _ => rfl, fun _ => .inr rfl⟩, rfl,
          Bool.noConfusion⟩
    | some junk =>
        let cap := growCap (if b.p.length ≠ 0 then b.p.length * 2 else 1024) (b.n + extra)
        have hreserve : b.reserve (some junk) extra =
            { b with p := b.p ++ List.replicate (cap - b.p.length) junk } := if_neg hroom
        have hlen : b.n ≤ b.p.length := h
        have hstart : 0 < if b.p.length ≠ 0 then b.p.length * 2 else 1024 := by
          split <;> omega
        have hcap : b.n + extra ≤ cap := le_growCap hstart
        have hcontent : (b.p ++ List.replicate (cap - b.p.length) junk).take b.n = b.content :=
          List.take_append_of_le_length hlen
        rw [hreserve]
        refine ⟨⟨?_, id, fun _ => hcontent.trans hsame, fun _ => hcontent, Or.inl⟩, rfl, fun _ => ?_⟩
        · rw [Fits, List.length_append]
          exact hlen.trans (Nat.le_add_right _ _)
        · rw [List.length_append, List.length_replicate]
          omega

/-- Storing behind what is written. -/
theorem store_writes (h : b.Fits) (hoom : b.oom = false) (data more : List Char)
    (hroom : b.n + (data.length + more.length) ≤ b.p.length) :
    ∃ p, store b.p b.n (data ++ more) = some p ∧
      Writes a b { b with p, n := b.n + data.length } data := by
  have hlen : (b.p.take b.n).length = b.n := List.length_take_of_le h
  obtain ⟨p, hp, hpre, hsize⟩ := store_after (data ++ more) (List.take_prefix b.n b.p)
    (by rw [hlen, List.length_append]; exact hroom)
  rw [hlen] at hp
  have hfits : Fits { b with p, n := b.n + data.length } := by
    rw [Fits, hsize]
    exact (Nat.add_le_add_left (Nat.le_add_right _ _) _).trans hroom
  have hcontent : p.take (b.n + data.length) = b.content ++ data := by
    rw [← List.append_assoc] at hpre
    have htake := List.prefix_iff_eq_take.mp ((List.prefix_append _ more).trans hpre)
    rw [List.length_append, hlen] at htake
    exact htake.symm
  exact ⟨p, hp, hfits, id, fun _ => hcontent, fun hb => (by cases hoom.symm.trans hb), Or.inl⟩

theorem append_writes (a : Alloc) (h : b.Fits) (data more : List Char) :
    ∃ b', b.append a data more = some b' ∧ Writes a b b' data := by
  obtain ⟨hres, hn, hroom⟩ := reserve_writes a h (data.length + more.length)
  rw [append]
  generalize b.reserve a (data.length + more.length) = r at hres hn hroom
  cases hoom : r.oom with
  | true =>
      refine ⟨r, if_pos rfl, hres.fits, hres.latched, fun hfalse => ?_, hres.kept, hres.why⟩
      cases hoom.symm.trans hfalse
  | false =>
      have hroom' : r.n + (data.length + more.length) ≤ r.p.length := hn ▸ hroom hoom
      obtain ⟨p, hp, hw⟩ := store_writes (a := a) hres.fits hoom data more hroom'
      have hwhole : r.content = b.content := (hres.wrote hoom).trans (List.append_nil _)
      simp only [Bool.false_eq_true, if_false, hp, Option.bind_eq_bind, Option.bind_some]
      rw [hoom] at hw
      exact ⟨_, rfl, hw.fits, fun hb => (by cases hoom.symm.trans (hres.latched hb)),
        fun hb => hwhole ▸ hw.wrote hb, Bool.noConfusion, Bool.noConfusion⟩

theorem step_writes (h : b.Fits) (op : Op × Alloc) :
    ∃ b', b.step op = some b' ∧ Writes op.2 b b' op.1.text := by
  obtain ⟨op, a⟩ := op
  cases op with
  | put data => exact append_writes a h data []
  | printf text =>
      by_cases htext : 0 < text.length
      · obtain ⟨b', hb', hw⟩ := append_writes a h text ['\x00']
        exact ⟨b', (if_pos htext).trans hb', hw⟩
      · have hnil : text = [] := List.length_eq_zero_iff.mp (by omega)
        refine ⟨b, if_neg htext, h, id, fun _ => ?_, fun _ => rfl, Or.inl⟩
        rw [Op.text, hnil, List.append_nil]

/-! ## A whole generator -/

/-- The text of a run of calls. -/
def texts (ops : List (Op × Alloc)) : List Char := ops.flatMap fun op => op.1.text

/-- By induction on the calls: what is written is the text of them all, or of those before the one
that found no memory. -/
theorem run_writes (ops : List (Op × Alloc)) : ∀ {b : Buf}, b.Fits →
    ∃ b', b.run ops = some b' ∧ b'.Fits ∧ (b.oom = true → b'.oom = true ∧ b'.content = b.content) ∧
      (b'.oom = false → b'.content = b.content ++ texts ops) ∧
      (b'.oom = true → b.oom = false → ∃ before op after, ops = before ++ op :: after ∧
        op.2 = none ∧ b'.content = b.content ++ texts before) := by
  induction ops with
  | nil =>
      intro b h
      refine ⟨b, rfl, h, fun hb => ⟨hb, rfl⟩, fun _ => (List.append_nil _).symm, fun hb hb' => ?_⟩
      cases hb.symm.trans hb'
  | cons op ops ih =>
      intro b h
      obtain ⟨c, hc, hw⟩ := step_writes h op
      obtain ⟨d, hd, hfits, hlatched, hwhole, hcut⟩ := ih hw.fits
      refine ⟨d, by rw [run, hc, Option.bind_some, hd], hfits, fun hb => ?_, fun hb => ?_,
        fun hb hb' => ?_⟩
      · obtain ⟨hoom, hcontent⟩ := hlatched (hw.latched hb)
        exact ⟨hoom, hcontent.trans (hw.kept (hw.latched hb))⟩
      · have hoom : c.oom = false := by
          cases hcoom : c.oom with
          | false => rfl
          | true => cases hb.symm.trans (hlatched hcoom).1
        rw [hwhole hb, hw.wrote hoom, List.append_assoc]
        rfl
      · cases hcoom : c.oom with
        | false =>
            obtain ⟨before, x, after, rfl, hx, hcontent⟩ := hcut hb hcoom
            refine ⟨op :: before, x, after, rfl, hx, ?_⟩
            rw [hcontent, hw.wrote hcoom, List.append_assoc]
            rfl
        | true =>
            refine ⟨[], op, ops, rfl, ?_, ?_⟩
            · rcases hw.why hcoom with hfalse | hnone
              · cases hb'.symm.trans hfalse
              · exact hnone
            · rw [(hlatched hcoom).2, hw.kept hcoom]
              exact (List.append_nil _).symm

/-- **A generated file is served whole or not at all.** Whatever a generator writes, in pieces of any
size, and whichever allocations fail, nothing is stored outside the buffer. Either everything that was
written is there and is served, or an allocation that was needed failed, what was written before it
is all there is, and nothing is served. -/
theorem generated_whole (ops : List (Op × Alloc)) (ok : Bool) :
    ∃ b, run empty ops = some b ∧
      (b.oom = false ∧ served ok b = (if ok then some (texts ops) else none) ∨
        b.oom = true ∧ served ok b = none ∧ ∃ before op after, ops = before ++ op :: after ∧
          op.2 = none ∧ b.content = texts before) := by
  have hempty : Fits empty := le_refl 0
  obtain ⟨b, hb, hfits, -, hwhole, hcut⟩ := run_writes ops hempty
  refine ⟨b, hb, ?_⟩
  cases hoom : b.oom with
  | false =>
      have hcontent : b.content = texts ops := hwhole hoom
      refine .inl ⟨rfl, ?_⟩
      rw [served, hoom, hcontent]
      cases ok <;> rfl
  | true =>
      refine .inr ⟨rfl, ?_, hcut hoom rfl⟩
      rw [served, hoom]
      exact if_neg fun hall => hall.2 rfl

/-- A generator that prints `pieces`; `allocs i` is what its `i`th call gets of `realloc`. -/
def generate (pieces : List (List Char)) (allocs : Nat → Alloc) : Option (Option (List Char)) :=
  (run empty (pieces.mapIdx fun i text => (.printf text, allocs i))).map (served true)

theorem texts_printf (pieces : List (List Char)) : ∀ allocs : Nat → Alloc,
    texts (pieces.mapIdx fun i text => (.printf text, allocs i)) = pieces.flatten := by
  induction pieces with
  | nil => exact fun _ => rfl
  | cons text pieces ih =>
      intro allocs
      rw [List.mapIdx_cons, texts, List.flatMap_cons, List.flatten_cons]
      exact congrArg (text ++ ·) (ih fun i => allocs (i + 1))

/-- What is served of a generator that prints is all it printed. -/
theorem generate_printed (pieces : List (List Char)) (allocs : Nat → Alloc) :
    ∃ r, generate pieces allocs = some r ∧ ∀ s ∈ r, s = pieces.flatten := by
  have hempty : Fits empty := le_refl 0
  obtain ⟨b, hb, -, -, hwhole, -⟩ :=
    run_writes (pieces.mapIdx fun i text => (.printf text, allocs i)) hempty
  refine ⟨served true b, by rw [generate, hb, Option.map_some], fun s hs => ?_⟩
  rw [texts_printf] at hwhole
  cases hoom : b.oom with
  | false =>
      rw [served, hoom, if_pos ⟨rfl, Bool.false_ne_true⟩, hwhole hoom] at hs
      exact (Option.mem_some.mp hs).symm
  | true =>
      rw [served, hoom, if_neg fun hall => hall.2 rfl] at hs
      cases hs

end Buf

end ApeShim.Procfs
