import ApeShim.Lib.Machine
import Mathlib.Logic.Function.Basic

/-!
The two cells behind one `errno` (`shim/errno.c`): the host's, which C code
writes, and the thread-local copy, which Rust code reads and writes through
`__ape_shim_errno_location`. After every visit the host cell holds a sentinel;
anything else there means that C wrote in between.
-/

namespace ApeShim.Errno
open Trace

/-! ## Translation -/

/-- A row of the generated table: the Linux value, and what cosmo's constant of
the same name holds on this host. -/
structure Row where
  linuxVal : Int
  host : Int
  deriving DecidableEq, Repr

def LIN_EACCES : Int := 13

/-- A Win32 code that cosmo leaves unmapped. -/
def kNtErrorSymlinkClassDisabled : Int := 1463

def errnoHostToLinux (rows : List Row) (host : Int) : Int :=
  if host = 0 then 0
  else
    match rows.find? fun r => r.host = host with
    | some r => r.linuxVal
    | none => if host = kNtErrorSymlinkClassDisabled then LIN_EACCES else host

/-! ## The cells -/

/-- `SHIM_ERRNO_SENTINEL`. -/
def sentinel : Int := 0x5AFEE44E

/-- One thread's `errno` and `shim_errno`. -/
structure Cells where
  host : Int
  shim : Int
  deriving DecidableEq, Repr

/-- `if (host != SHIM_ERRNO_SENTINEL) shim_errno = ...`, with the value of
`errno` that was fetched into `host`. -/
def retranslate (rows : List Row) (host shim : Int) : Int :=
  if host ≠ sentinel then errnoHostToLinux rows host else shim

/-- `__ape_shim_errno_location`; the caller then uses the `shim` cell. -/
def errnoLocation (rows : List Row) (c : Cells) : Cells :=
  ⟨sentinel, retranslate rows c.host c.shim⟩

/-- What one side does with `errno`. -/
inductive Access
  | cWrite (e : Int)
  | rustRead
  | rustWrite (v : Int)
  deriving DecidableEq, Repr

def Access.run (rows : List Row) (c : Cells) : Access → Cells
  | .cWrite e => { c with host := e }
  | .rustRead => errnoLocation rows c
  | .rustWrite v => { errnoLocation rows c with shim := v }

/-- What the next Rust read yields. -/
def Cells.value (rows : List Row) (c : Cells) : Int := retranslate rows c.host c.shim

theorem value_cWrite {rows : List Row} {e : Int} (he : e ≠ sentinel) (c : Cells) :
    ((Access.cWrite e).run rows c).value rows = errnoHostToLinux rows e := by
  simp [Access.run, Cells.value, retranslate, he]

@[simp] theorem value_rustRead (rows : List Row) (c : Cells) :
    (Access.rustRead.run rows c).value rows = c.value rows := by
  simp [Access.run, Cells.value, errnoLocation, retranslate]

@[simp] theorem value_rustWrite (rows : List Row) (c : Cells) (v : Int) :
    ((Access.rustWrite v).run rows c).value rows = v := by
  simp [Access.run, Cells.value, errnoLocation, retranslate]

/-! ## Threads -/

inductive Seen
  | cWrote (t : Nat) (e : Int)
  | rustWrote (t : Nat) (v : Int)
  | rustGot (t : Nat) (v : Int)
  deriving DecidableEq

/-- What thread `t` is seen to do; a read yields the cell it was handed. -/
def Access.seen (t : Nat) (after : Cells) : Access → Seen
  | .cWrite e => .cWrote t e
  | .rustRead => .rustGot t after.shim
  | .rustWrite v => .rustWrote t v

/-- Every thread starts with both cells zero. -/
def errnoMachine (rows : List Row) : Machine (Nat → Cells) (Nat × Access) Seen where
  init := fun _ => ⟨0, 0⟩
  step := fun s a =>
    let after := a.2.run rows (s a.1)
    some (Function.update s a.1 after, [a.2.seen a.1 after])

/-- No C code writes the sentinel. -/
def RealCode (_ : Nat → Cells) (a : Nat × Access) : Prop := a.2 ≠ .cWrite sentinel

/-! ## The one variable -/

/-- The errno of thread `t` after a history, newest first: the translation of
the last C write or the last Rust write, whichever is later. -/
def latest (rows : List Row) (t : Nat) : List Seen → Int
  | [] => 0
  | .cWrote t' e :: older => if t' = t then errnoHostToLinux rows e else latest rows t older
  | .rustWrote t' v :: older => if t' = t then v else latest rows t older
  | .rustGot _ _ :: older => latest rows t older

def Seen.writes (t : Nat) : Seen → Prop
  | .cWrote t' _ | .rustWrote t' _ => t' = t
  | .rustGot _ _ => False

theorem latest_append {rows : List Row} {t : Nat} {older : List Seen} :
    ∀ newer : List Seen, (∀ o ∈ newer, ¬ o.writes t) →
      latest rows t (newer ++ older) = latest rows t older
  | [], _ => rfl
  | o :: newer, h => by
    have ih := @latest_append rows t older newer (fun x hx => h x (by simp [hx]))
    have ho := h o (by simp)
    cases o <;> simp_all [latest, Seen.writes]

/-- Every read in the history got the value the variable had. -/
def Coherent (rows : List Row) : List Seen → Prop
  | [] => True
  | .rustGot t v :: older => v = latest rows t older ∧ Coherent rows older
  | _ :: older => Coherent rows older

theorem Coherent.at {rows : List Row} {t : Nat} {v : Int} {older : List Seen} :
    ∀ newer : List Seen, Coherent rows (newer ++ .rustGot t v :: older) → v = latest rows t older
  | [], h => h.1
  | o :: newer, h => by
    have ih := @Coherent.at rows t v older newer
    cases o with
    | rustGot _ _ => exact ih h.2
    | _ => exact ih h

theorem cells_run {rows : List Row} {s : Nat → Cells} {log : List Seen}
    (h : (errnoMachine rows).Run RealCode s log) :
    (∀ t, (s t).value rows = latest rows t log) ∧ Coherent rows log := by
  refine h.invariant (P := fun s log => (∀ t, (s t).value rows = latest rows t log) ∧
    Coherent rows log) ⟨fun t => rfl, trivial⟩ ?_
  rintro s log ⟨t, a⟩ s' out ⟨hval, hcoh⟩ hreal hs
  cases hs
  -- the other threads' cells stay, and the step is not about them
  have hother : ∀ t', t' ≠ t → ∀ o : Seen, o = a.seen t (a.run rows (s t)) →
      (Function.update s t (a.run rows (s t)) t').value rows = latest rows t' (o :: log) := by
    rintro t' hne o rfl
    rw [Function.update_of_ne hne, hval t']
    cases a <;> simp [Access.seen, latest, Ne.symm hne]
  cases a with
  | cWrite e =>
    have he : e ≠ sentinel := fun heq => hreal (by rw [heq])
    refine ⟨fun t' => ?_, hcoh⟩
    by_cases ht : t' = t
    · subst ht
      simp [value_cWrite he, Access.seen, latest]
    · exact hother t' ht _ rfl
  | rustRead =>
    refine ⟨fun t' => ?_, hval t, hcoh⟩
    by_cases ht : t' = t
    · subst ht
      simp [hval, Access.seen, latest]
    · exact hother t' ht _ rfl
  | rustWrite v =>
    refine ⟨fun t' => ?_, hcoh⟩
    by_cases ht : t' = t
    · subst ht
      simp [Access.seen, latest]
    · exact hother t' ht _ rfl

/-- **The two cells are one variable.** In every interleaving, a Rust read in
thread `t` yields what `t` last wrote: the translation of the C write if that is
the later one, else the value Rust wrote. Reads with no write between agree. -/
theorem errno_reads_coherent (rows : List Row) {s : Nat → Cells} {log : List Seen}
    (h : (errnoMachine rows).Run RealCode s log) :
    (∀ newer t v older, log = newer ++ .rustGot t v :: older → v = latest rows t older) ∧
    (∀ newer t v mid v' older, log = newer ++ .rustGot t v :: (mid ++ .rustGot t v' :: older) →
      (∀ o ∈ mid, ¬ o.writes t) → v = v') := by
  obtain ⟨-, hcoh⟩ := cells_run h
  refine ⟨?_, ?_⟩
  · rintro newer t v older rfl
    exact hcoh.at newer
  · rintro newer t v mid v' older rfl hmid
    have hlate := hcoh.at newer
    rw [← List.cons_append, ← List.append_assoc] at hcoh
    have hearly := hcoh.at (newer ++ .rustGot t v :: mid)
    rw [hlate, latest_append mid hmid, hearly]
    rfl

/-- ENOENT, a Rust reset, ENOENT again: the second failure is seen. -/
theorem errno_reads_coherent_repeated :
    ∃ s log, (errnoMachine [⟨2, 3⟩]).Run RealCode s log ∧
      log = [.rustGot 0 2, .cWrote 0 3, .rustWrote 0 0, .rustGot 0 2, .cWrote 0 3] ∧
      2 = latest [⟨2, 3⟩] 0 [.cWrote 0 3, .rustWrote 0 0, .rustGot 0 2, .cWrote 0 3] := by
  have hstart : (errnoMachine [⟨2, 3⟩]).Run RealCode (fun _ => ⟨0, 0⟩) [] := .start
  obtain ⟨s, log, hrun, hp⟩ := hstart.extend (fun _ a => decide (a.2 ≠ .cWrite sentinel))
    (fun _ _ ha => by simpa [RealCode] using ha)
    [(0, .cWrite 3), (0, .rustRead), (0, .rustWrite 0), (0, .cWrite 3), (0, .rustRead)]
    (fun _ log => decide
      (log = [.rustGot 0 2, .cWrote 0 3, .rustWrote 0 0, .rustGot 0 2, .cWrote 0 3])) (by decide)
  have hlog := of_decide_eq_true hp
  exact ⟨s, log, hrun, hlog, (errno_reads_coherent _ hrun).1 [] 0 2 _ hlog⟩

end ApeShim.Errno
