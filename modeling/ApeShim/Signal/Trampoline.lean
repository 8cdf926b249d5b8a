import ApeShim.Errno

/-!
Signal handlers and `errno`: `tramp1` and `tramp3` of `shim/signal.c` around a
handler that itself reads and writes `errno`, interrupting a thread anywhere,
also inside `__ape_shim_errno_location`. The trampolines put the host cell back
and leave the thread-local copy as the handler left it, so the handler is seen
exactly where the interrupted thread still takes its value from that copy and
the handler changed it.
-/

namespace ApeShim.Signal
open ApeShim.Errno

/-! ## The handler -/

/-- The body of a handler: what it does to `errno`, in order. -/
abbrev Body := List Access

def runBody (rows : List Row) (c : Cells) (body : Body) : Cells :=
  body.foldl (Access.run rows) c

/-- `int saved = errno; h(...); errno = saved;`, the same in both trampolines. -/
def trampoline (rows : List Row) (body : Body) (c : Cells) : Cells :=
  { runBody rows c body with host := c.host }

/-! ## The interrupted thread -/

/-- What the thread called `__ape_shim_errno_location` for. -/
inductive Purpose
  | read
  | write (v : Int)
  deriving DecidableEq, Repr

/-- Where the signal finds the thread. -/
inductive Point
  | outside
  /-- after `int host = errno` -/
  | fetched (k : Purpose)
  /-- after the copy was brought up to date -/
  | translated (k : Purpose)
  /-- after the sentinel was parked, before the copy is used -/
  | parked (k : Purpose)
  deriving DecidableEq, Repr

/-- The cells at that point of a call that began with the cells `c`. -/
def Point.cells (rows : List Row) (c : Cells) : Point → Cells
  | .outside | .fetched _ => c
  | .translated _ => { c with shim := retranslate rows c.host c.shim }
  | .parked _ => errnoLocation rows c

/-- The rest of the access, from the cells `d` it is resumed with; `host` is the
value fetched on entry. A read gives the value it yields. -/
def Purpose.use (d : Cells) : Purpose → Cells × List Int
  | .read => (d, [d.shim])
  | .write v => ({ d with shim := v }, [])

def Point.resume (rows : List Row) (host : Int) (d : Cells) : Point → Cells × List Int
  | .outside => (d, [])
  | .fetched k => k.use ⟨sentinel, retranslate rows host d.shim⟩
  | .translated k => k.use { d with host := sentinel }
  | .parked k => k.use d

/-- The values of the Rust reads among `later`. -/
def reads (rows : List Row) (c : Cells) : List Access → List Int
  | [] => []
  | .rustRead :: later =>
      (errnoLocation rows c).shim :: reads rows (errnoLocation rows c) later
  | a :: later => reads rows (a.run rows c) later

/-- Everything the thread reads from `errno` after it is resumed with `d`. -/
def readsAfter (rows : List Row) (p : Point) (host : Int) (d : Cells) (later : List Access) :
    List Int :=
  (p.resume rows host d).2 ++ reads rows (p.resume rows host d).1 later

/-- The handler runs at `p` of a thread whose cells were `c`, and nothing the
thread reads afterwards is different for it, whatever it does. As everywhere, no
C code of the thread writes the sentinel. -/
def Transparent (rows : List Row) (c : Cells) (p : Point) (body : Body) : Prop :=
  ∀ later, (∀ a ∈ later, a ≠ .cWrite sentinel) →
    readsAfter rows p c.host (trampoline rows body (p.cells rows c)) later =
      readsAfter rows p c.host (p.cells rows c) later

/-! ## What the handler leaves in the copy -/

/-- The host value a Rust access finds after `older`, newest first, if it is not
the sentinel; `h` was there at the start. -/
def pendingHost (h : Int) : List Access → Option Int
  | [] => if h = sentinel then none else some h
  | .cWrite e :: _ => if e = sentinel then none else some e
  | _ :: _ => none

/-- What a body, read from its end, leaves in the copy: the value of the last
Rust write, or the host value translated by a later Rust read. -/
def leftInCopy (rows : List Row) (h : Int) : List Access → Option Int
  | [] => none
  | .cWrite _ :: older => leftInCopy rows h older
  | .rustWrite v :: _ => some v
  | .rustRead :: older =>
      match pendingHost h older with
      | some e => some (errnoHostToLinux rows e)
      | none => leftInCopy rows h older

/-- The next thing the thread reads comes from the copy as it is. -/
def Relies (c : Cells) : Point → Prop
  | .outside | .fetched .read => c.host = sentinel
  | .translated .read | .parked .read => True
  | _ => False

theorem runBody_host (rows : List Row) (c : Cells) (newest : List Access) :
    pendingHost c.host newest =
      if (runBody rows c newest.reverse).host = sentinel then none
      else some (runBody rows c newest.reverse).host := by
  cases newest with
  | nil => rfl
  | cons a older =>
    simp only [runBody, List.reverse_cons, List.foldl_append, List.foldl_cons, List.foldl_nil]
    cases a <;> simp [pendingHost, Access.run, errnoLocation]

theorem runBody_shim (rows : List Row) (c : Cells) (newest : List Access) :
    (runBody rows c newest.reverse).shim = (leftInCopy rows c.host newest).getD c.shim := by
  induction newest with
  | nil => rfl
  | cons a older ih =>
    have hlast : runBody rows c (a :: older).reverse = a.run rows (runBody rows c older.reverse) := by
      simp [runBody]
    rw [hlast]
    cases a with
    | cWrite e => exact ih
    | rustWrite v => rfl
    | rustRead =>
      simp only [Access.run, errnoLocation, retranslate, leftInCopy, runBody_host rows c older]
      split
      · simp
      · rename_i hs
        simp only [ne_eq, Decidable.not_not] at hs
        simp [hs, ih]

/-! ## Who sees it -/

theorem trampoline_shim (rows : List Row) (body : Body) (c : Cells) :
    (trampoline rows body c).shim = (leftInCopy rows c.host body.reverse).getD c.shim := by
  have h := runBody_shim rows c body.reverse
  rw [List.reverse_reverse] at h
  exact h

/-- Cells that differ only in a copy about to be overwritten read alike. -/
theorem reads_congr {rows : List Row} (later : List Access) :
    ∀ {c d : Cells}, d.host = c.host → (c.host = sentinel → d.shim = c.shim) →
      (∀ a ∈ later, a ≠ .cWrite sentinel) → reads rows d later = reads rows c later := by
  induction later with
  | nil => intro c d _ _ _; rfl
  | cons a later ih =>
    intro c d hhost hshim hreal
    have hrest : ∀ a ∈ later, a ≠ .cWrite sentinel := fun b hb => hreal b (by simp [hb])
    have hloc : errnoLocation rows d = errnoLocation rows c := by
      simp only [errnoLocation, retranslate, hhost]
      split
      · rfl
      · rename_i hs
        rw [hshim (not_not.mp hs)]
    cases a with
    | cWrite e =>
      have he : e ≠ sentinel := fun heq => hreal (.cWrite e) (by simp) (by rw [heq])
      exact ih rfl (fun hs => absurd hs he) hrest
    | rustRead => simp only [reads, hloc]
    | rustWrite v => simp only [reads, Access.run, hloc]

theorem reads_once (rows : List Row) {c : Cells} (h : c.host = sentinel) :
    reads rows c [.rustRead] = [c.shim] := by
  simp [reads, errnoLocation, retranslate, h]

theorem transparent_of_same {rows : List Row} {c : Cells} {p : Point} {body : Body}
    (h : (trampoline rows body (p.cells rows c)).shim = (p.cells rows c).shim) :
    Transparent rows c p body := by
  intro later _
  have hcells : trampoline rows body (p.cells rows c) = p.cells rows c := by
    rw [show trampoline rows body (p.cells rows c) =
      ⟨(p.cells rows c).host, (trampoline rows body (p.cells rows c)).shim⟩ from rfl, h]
  rw [hcells]

/-- A thread that does not rely on the copy overwrites it before it reads. -/
theorem transparent_of_not_relies {rows : List Row} {c : Cells} {p : Point} {body : Body}
    (h : ¬ Relies c p) : Transparent rows c p body := by
  intro later hreal
  cases p with
  | outside => exact reads_congr later rfl (fun hs => absurd hs h) hreal
  | fetched k =>
    cases k with
    | read =>
      have hne : c.host ≠ sentinel := h
      simp [readsAfter, Point.resume, Purpose.use, retranslate, hne]
    | write v => rfl
  | translated k =>
    cases k with
    | read => exact absurd trivial h
    | write v => rfl
  | parked k =>
    cases k with
    | read => exact absurd trivial h
    | write v => rfl

/-- A thread that relies on the copy reads it next. -/
theorem relies_reads {rows : List Row} {c : Cells} {p : Point} (h : Relies c p) :
    ∃ later, (∀ a ∈ later, a ≠ Access.cWrite sentinel) ∧
      ∀ d : Cells, d.host = (p.cells rows c).host → readsAfter rows p c.host d later = [d.shim] := by
  cases p with
  | outside =>
    refine ⟨[.rustRead], by simp, fun d hd => ?_⟩
    exact reads_once rows (hd.trans h)
  | fetched k =>
    cases k with
    | read =>
      have hs : c.host = sentinel := h
      exact ⟨[], by simp, fun d _ => by
        simp [readsAfter, Point.resume, Purpose.use, retranslate, hs, reads]⟩
    | write v => exact h.elim
  | translated k =>
    cases k with
    | read => exact ⟨[], by simp, fun d _ => rfl⟩
    | write v => exact h.elim
  | parked k =>
    cases k with
    | read => exact ⟨[], by simp, fun d _ => rfl⟩
    | write v => exact h.elim

/-- **When a handler is transparent to errno.** For all cells, every point of
the interrupted thread and every handler body: the thread's later reads are as
if the handler had not run exactly when the thread does not rely on the copy, or
the body leaves the copy alone, or leaves in it what was there. -/
theorem handler_transparent_iff (rows : List Row) (c : Cells) (p : Point) (body : Body) :
    Transparent rows c p body ↔
      ¬ Relies c p ∨ leftInCopy rows (p.cells rows c).host body.reverse = none ∨
        leftInCopy rows (p.cells rows c).host body.reverse = some (p.cells rows c).shim := by
  have hshim := trampoline_shim rows body (p.cells rows c)
  constructor
  · intro htrans
    by_cases hrel : Relies c p
    · right
      obtain ⟨later, hreal, hreads⟩ := @relies_reads rows c p hrel
      have hsame := htrans later hreal
      rw [hreads (trampoline rows body (p.cells rows c)) rfl, hreads (p.cells rows c) rfl,
        List.cons.injEq] at hsame
      cases hleft : leftInCopy rows (p.cells rows c).host body.reverse with
      | none => exact Or.inl rfl
      | some v =>
        rw [hleft] at hshim
        exact Or.inr (by rw [← hsame.1, hshim]; rfl)
    · exact Or.inl hrel
  · rintro (hrel | hnone | hsame)
    · exact transparent_of_not_relies hrel
    · refine transparent_of_same ?_
      rw [hshim, hnone]
      rfl
    · refine transparent_of_same ?_
      rw [hshim, hsame]
      rfl

/-- After a Rust visit the host cell holds the sentinel and the copy ENOENT. A
handler in which a C call fails with code 9 and Rust looks at `errno` leaves 9
in the copy, and the thread reads that. -/
theorem handler_seen_through_copy :
    ¬ Transparent [] ⟨sentinel, 2⟩ .outside [.cWrite 9, .rustRead] := by
  intro h
  have hread := h [.rustRead] (by decide)
  simp [readsAfter, Point.resume, Point.cells, trampoline, runBody, Access.run, errnoLocation,
    retranslate, reads, errnoHostToLinux, sentinel, kNtErrorSymlinkClassDisabled] at hread

end ApeShim.Signal
