import ApeShim.Lib.Flags
import Mathlib.Data.List.Sort

/-!
One emulated inotify instance (`shim/inotify.c`): its watch list, the records
`emit` hands to the pipe, the two scans, and the bodies of `emu_add_watch`,
`emu_rm_watch` and one pass of `scan_thread`, each run under the instance's lock.
What the host answers (`stat`, `opendir`, `write`, allocation, thread creation)
is an input.
-/

namespace ApeShim.Inotify
open Flags

/-! ## Constants -/

abbrev Mask := BitVec 32

def inModify : Mask := 0x00000002#32
def inAttrib : Mask := 0x00000004#32
def inCreate : Mask := 0x00000100#32
def inDelete : Mask := 0x00000200#32
def inDeleteSelf : Mask := 0x00000400#32
def inQOverflow : Mask := 0x00004000#32
def inIgnored : Mask := 0x00008000#32
def inOnlydir : Mask := 0x01000000#32
def inDontFollow : Mask := 0x02000000#32
def inMaskCreate : Mask := 0x10000000#32
def inMaskAdd : Mask := 0x20000000#32
def inIsdir : Mask := 0x40000000#32
def inAllEvents : Mask := 0x00000fff#32

/-- `SHIM_IN_MAX_WATCHES`. -/
def maxWatches : Nat := 8192

def nameMax : Nat := 255

def pathMax : Nat := 1024

/-- `SHIM_IN_EVENT_ALIGN`, the size of the record's fixed part. -/
def eventAlign : Nat := 16

inductive Err
  | efault | einval | enotdir | ebadf | eexist | enospc | enomem | eagain | emfile
  /-- whatever `stat` or `pipe` left in `errno` -/
  | host
  deriving DecidableEq, Repr

/-! ## Data -/

/-- Bytes up to the terminator. -/
abbrev Name := List UInt8

structure Stat where
  ino : Nat
  mtime : Int
  mtimeNs : Int
  size : Int
  mode : Nat
  isdir : Bool
  deriving DecidableEq, Repr

structure Kid where
  name : Name
  st : Stat
  deriving DecidableEq, Repr

structure Watch where
  wd : Int
  path : Name
  mask : Mask
  isdir : Bool
  /-- reported IN_IGNORED, waiting to be reaped -/
  dropped : Bool
  kids : List Kid
  self : Stat
  deriving DecidableEq, Repr

/-- `struct shim_inotify_event` with the padded name behind it; `cookie` is 0. -/
structure Event where
  wd : Int
  mask : Mask
  len : Nat
  name : Name
  deriving DecidableEq, Repr

/-- A used `struct shim_in_inst`. `pipe` says which pipe was made for it and
`sent` lists the records given to `write`, newest first; the program keeps neither. -/
structure Inst where
  rfd : Int
  wfd : Int
  nextWd : Int
  dead : Bool
  overflow : Bool
  scanning : Bool
  watches : List Watch
  pipe : Nat
  sent : List Event
  deriving DecidableEq, Repr

/-! ## What the host answers -/

/-- What `write` answers while the read end is open. -/
inductive Room
  | ok | again | intr
  deriving DecidableEq, Repr

inductive Written
  | took (r : Room)
  /-- any other error: the reader is gone -/
  | failed
  deriving DecidableEq, Repr

inductive StatAnswer
  /-- ENOENT or ENOTDIR -/
  | gone
  | error
  | found (st : Stat)
  deriving DecidableEq, Repr

inductive Listing
  | gone
  | error
  /-- what `readdir` gave until the list ended or memory did, each entry with
  the `lstat` of it -/
  | entries (l : List (Name × Option Stat))
  deriving DecidableEq, Repr

structure Host where
  stat : Bool → Name → StatAnswer
  opendir : Name → Listing

/-! ## Emitting -/

/-- `(n + 1 + ALIGN - 1) & ~(ALIGN - 1)`. -/
def paddedLen (n : Nat) : Nat := (n + 1 + eventAlign - 1) / eventAlign * eventAlign

def record (wd : Int) (mask : Mask) (name : Name) : Event :=
  match name with
  | [] => ⟨wd, mask, 0, []⟩
  | _ =>
      let n := min name.length nameMax
      ⟨wd, mask, paddedLen n, name.take n ++ List.replicate (paddedLen n - n) 0⟩

@[simp] theorem record_wd (wd : Int) (mask : Mask) (name : Name) : (record wd mask name).wd = wd := by
  cases name <;> rfl

@[simp] theorem record_mask (wd : Int) (mask : Mask) (name : Name) :
    (record wd mask name).mask = mask := by
  cases name <;> rfl

/-- `write` answers by how many records the instance has tried so far. -/
def Inst.emit (wr : Nat → Written) (g : Inst) (wd : Int) (mask : Mask) (name : Name) : Inst :=
  if g.dead then g
  else
    let g' := { g with sent := record wd mask name :: g.sent }
    match wr g.sent.length with
    | .took .ok => g'
    | .took .again => { g' with overflow := true }
    | .took .intr => g'
    | .failed => { g' with dead := true }

/-- Calls of `emit` for one watch, in order. -/
def Inst.emitAll (wr : Nat → Written) (wd : Int) (g : Inst) (calls : List (Mask × Name)) : Inst :=
  calls.foldl (fun g c => g.emit wr wd c.1 c.2) g

/-! ## Scanning a directory -/

def strcmp : Name → Name → Ordering
  | [], [] => .eq
  | [], _ :: _ => .lt
  | _ :: _, [] => .gt
  | a :: as, b :: bs => (compare a b).then (strcmp as bs)

def dot : Name := [46]
def dotdot : Name := [46, 46]

/-- The listing loop of `scan_dir` and the sort after it. -/
def listKids (path : Name) (l : List (Name × Option Stat)) : List Kid :=
  let kept := l.filterMap fun e =>
    if e.1 = dot ∨ e.1 = dotdot ∨ path.length + 1 + e.1.length ≥ pathMax then none
    else e.2.map (Kid.mk e.1)
  kept.insertionSort fun a b => strcmp a.name b.name ≠ .gt

def orIsdir (m : Mask) (isdir : Bool) : Mask := raise isdir inIsdir m

def gone (mask : Mask) (k : Kid) : List (Mask × Name) :=
  if has mask inDelete then [(orIsdir inDelete k.st.isdir, k.name)] else []

def appeared (mask : Mask) (k : Kid) : List (Mask × Name) :=
  if has mask inCreate then [(orIsdir inCreate k.st.isdir, k.name)] else []

def touched (o p : Stat) : Bool := o.mtime ≠ p.mtime ∨ o.mtimeNs ≠ p.mtimeNs ∨ o.size ≠ p.size

/-- The name is in both listings. Both records of a replaced file carry the
new file's IN_ISDIR. -/
def kept (mask : Mask) (o p : Kid) : List (Mask × Name) :=
  if o.st.ino ≠ p.st.ino then
    (if has mask inDelete then [(orIsdir inDelete p.st.isdir, o.name)] else []) ++
      (if has mask inCreate then [(orIsdir inCreate p.st.isdir, p.name)] else [])
  else
    (if touched o.st p.st && has mask inModify then [(orIsdir inModify p.st.isdir, p.name)] else []) ++
      (if o.st.mode ≠ p.st.mode && has mask inAttrib then
        [(orIsdir inAttrib p.st.isdir, p.name)] else [])

/-- The two sorted listings walked in step. -/
def diffLoop (mask : Mask) : Nat → List Kid → List Kid → List (Mask × Name)
  | 0, _, _ => []
  | _ + 1, [], [] => []
  | fuel + 1, [], p :: now => appeared mask p ++ diffLoop mask fuel [] now
  | fuel + 1, o :: old, [] => gone mask o ++ diffLoop mask fuel old []
  | fuel + 1, o :: old, p :: now =>
      match strcmp o.name p.name with
      | .lt => gone mask o ++ diffLoop mask fuel old (p :: now)
      | .gt => appeared mask p ++ diffLoop mask fuel (o :: old) now
      | .eq => kept mask o p ++ diffLoop mask fuel old now

def diff (mask : Mask) (old now : List Kid) : List (Mask × Name) :=
  diffLoop mask (old.length + now.length) old now

def selfGone (mask : Mask) : List (Mask × Name) :=
  if has mask inDeleteSelf then [(inDeleteSelf, [])] else []

/-- IN_IGNORED is held back only while the mask is 0, which is how
`emu_add_watch` silences the first listing. -/
def scanDir (wr : Nat → Written) (ls : Listing) (g : Inst) (w : Watch) : Inst × Watch :=
  match ls with
  | .gone =>
      (g.emitAll wr w.wd (selfGone w.mask ++ if w.mask ≠ 0#32 then [(inIgnored, [])] else []),
        { w with dropped := true })
  | .error => (g, w)
  | .entries l =>
      let now := listKids w.path l
      (g.emitAll wr w.wd (diff w.mask w.kids now), { w with kids := now })

/-! ## Scanning a file -/

def selfChanged (mask : Mask) (o p : Stat) : List (Mask × Name) :=
  if p.ino ≠ o.ino then (if has mask inAttrib then [(inAttrib, [])] else [])
  else
    (if touched p o && has mask inModify then [(inModify, [])] else []) ++
      (if p.mode ≠ o.mode && has mask inAttrib then [(inAttrib, [])] else [])

def scanFile (wr : Nat → Written) (host : Host) (g : Inst) (w : Watch) : Inst × Watch :=
  match host.stat (has w.mask inDontFollow) w.path with
  | .gone =>
      (g.emitAll wr w.wd (selfGone w.mask ++ [(inIgnored, [])]), { w with dropped := true })
  | .error => (g, w)
  | .found st => (g.emitAll wr w.wd (selfChanged w.mask w.self st), { w with self := st })

/-! ## One pass of the scan thread -/

def scanWatch (wr : Nat → Written) (host : Host) (g : Inst) (w : Watch) : Inst × Watch :=
  if w.dropped then (g, w)
  else if w.isdir then scanDir wr (host.opendir w.path) g w
  else scanFile wr host g w

def scanAll (wr : Nat → Written) (host : Host) : Inst → List Watch → Inst × List Watch
  | g, [] => (g, [])
  | g, w :: ws =>
      let r := scanWatch wr host g w
      let rs := scanAll wr host r.1 ws
      (rs.1, r.2 :: rs.2)

def reap (ws : List Watch) : List Watch := ws.filter fun w => !w.dropped

/-- The overflow record of the last pass goes first. -/
def Inst.tellOverflow (wr : Nat → Written) (g : Inst) : Inst :=
  if g.overflow then { g with overflow := false }.emit wr (-1) inQOverflow [] else g

/-- The body of `scan_thread`'s loop on an instance that is not dead. -/
def Inst.pass (wr : Nat → Written) (host : Host) (g : Inst) : Inst :=
  let r := scanAll wr host (g.tellOverflow wr) g.watches
  { r.1 with watches := reap r.2 }

/-! ## Adding and removing -/

/-- `x + 1` in an `int`. -/
def incr (x : Int) : Int := Int.bmod (x + 1) (2 ^ 32)

theorem incr_eq {x : Int} (h0 : 0 < x) (h : x < 2 ^ 31 - 1) : incr x = x + 1 := by
  unfold incr
  rw [Int.bmod_eq_of_le]
  all_goals omega

def liveAt (path : Name) (w : Watch) : Bool := !w.dropped && w.path = path

def remask (mask : Mask) (w : Watch) : Watch :=
  { w with mask := if has mask inMaskAdd then w.mask ||| mask else mask }

/-- How `realloc`, `strdup` and `pthread_create` answer one `emu_add_watch`. -/
structure Resources where
  /-- false where the list had to grow and could not -/
  grow : Bool
  dup : Bool
  spawn : Bool
  deriving DecidableEq, Repr

/-- The new entry at the end of the list, after its first listing. -/
def firstScan (wr : Nat → Written) (ls : Listing) (g : Inst) (path : Name) (mask : Mask)
    (st : Stat) : Inst × Watch :=
  let w : Watch := ⟨g.nextWd, path, mask, st.isdir, false, [], st⟩
  let g := { g with nextWd := incr g.nextWd }
  if st.isdir then
    -- the mask is 0 for the length of the first listing
    let r := scanDir wr ls g { w with mask := 0#32 }
    (r.1, { r.2 with mask := mask })
  else (g, w)

/-- `emu_add_watch` from the point where it holds the instance's lock. -/
def Inst.addWatch (wr : Nat → Written) (ls : Listing) (res : Resources) (g : Inst) (path : Name)
    (mask : Mask) (st : Stat) : Inst × Except Err Int :=
  match g.watches.find? (liveAt path) with
  | some w =>
      if has mask inMaskCreate then (g, .error .eexist)
      else
        ({ g with watches := g.watches.modify (g.watches.findIdx (liveAt path)) (remask mask) },
          .ok w.wd)
  | none =>
      if g.watches.length ≥ maxWatches then (g, .error .enospc)
      else if res.grow = false then (g, .error .enomem)
      else if res.dup = false then ({ g with nextWd := incr g.nextWd }, .error .enomem)
      else
        let r := firstScan wr ls g path mask st
        let g' := { r.1 with watches := g.watches ++ [r.2] }
        if g'.scanning = false ∧ g'.dead = false then
          if res.spawn then ({ g' with scanning := true }, .ok r.2.wd) else (g', .error .eagain)
        else (g', .ok r.2.wd)

/-- `emu_rm_watch` under the instance's lock. -/
def Inst.rmWatch (wr : Nat → Written) (g : Inst) (wd : Int) : Inst × Except Err Unit :=
  let hit := fun w : Watch => w.wd = wd && !w.dropped
  if g.watches.any hit then
    ({ g.emit wr wd inIgnored [] with watches := g.watches.eraseP hit }, .ok ())
  else (g, .error .einval)

/-- Changing the first item that is found leaves the others where they stand. -/
theorem modify_findIdx {α : Type} {p : α → Bool} {l : List α} {a : α} (h : l.find? p = some a)
    (f : α → α) : ∃ l₁ l₂, l = l₁ ++ a :: l₂ ∧ l.modify (l.findIdx p) f = l₁ ++ f a :: l₂ := by
  obtain ⟨ha, l₁, l₂, rfl, hbefore⟩ := List.find?_eq_some_iff_append.mp h
  have hnot : ¬ l₁.findIdx p < l₁.length := by
    rw [List.findIdx_lt_length]
    rintro ⟨x, hx, hpx⟩
    have := hbefore x hx
    simp [hpx] at this
  have hidx : (l₁ ++ a :: l₂).findIdx p = l₁.length := by
    rw [List.findIdx_append, if_neg hnot]
    simp [List.findIdx_cons, ha]
  refine ⟨l₁, l₂, rfl, ?_⟩
  rw [hidx, List.modify_eq_take_cons_drop (by simp)]
  simp

/-! ## What every operation keeps -/

/-- An instance keeps its descriptors and its pipe, stays dead once dead, and
dies only of a write that found the reader gone. -/
structure Inst.Evolves (wr : Nat → Written) (g g' : Inst) : Prop where
  rfd : g'.rfd = g.rfd
  wfd : g'.wfd = g.wfd
  pipe : g'.pipe = g.pipe
  dead : g.dead = true → g'.dead = true
  reason : g'.dead = true → g.dead = true ∨ ∃ k, wr k = .failed

/-- Emitting also leaves the descriptor counter alone. -/
structure Inst.Emitted (wr : Nat → Written) (g g' : Inst) : Prop extends Inst.Evolves wr g g' where
  nextWd : g'.nextWd = g.nextWd

variable {wr : Nat → Written}

theorem Inst.Evolves.refl (g : Inst) : g.Evolves wr g := ⟨rfl, rfl, rfl, id, Or.inl⟩

theorem Inst.Evolves.trans {a b c : Inst} (hab : a.Evolves wr b) (hbc : b.Evolves wr c) :
    a.Evolves wr c where
  rfd := hbc.rfd.trans hab.rfd
  wfd := hbc.wfd.trans hab.wfd
  pipe := hbc.pipe.trans hab.pipe
  dead h := hbc.dead (hab.dead h)
  reason h := by
    rcases hbc.reason h with hb | hk
    · exact hab.reason hb
    · exact Or.inr hk

/-- What is alive afterwards was alive before. -/
theorem Inst.Evolves.live {g g' : Inst} (h : g.Evolves wr g') (hd : g'.dead = false) :
    g.dead = false := by
  cases hg : g.dead with
  | false => rfl
  | true => rw [h.dead hg] at hd; cases hd

namespace Inst.Emitted

theorem refl (g : Inst) : g.Emitted wr g := ⟨.refl g, rfl⟩

theorem trans {a b c : Inst} (hab : a.Emitted wr b) (hbc : b.Emitted wr c) : a.Emitted wr c :=
  ⟨hab.toEvolves.trans hbc.toEvolves, hbc.nextWd.trans hab.nextWd⟩

theorem emit (g : Inst) (wd : Int) (mask : Mask) (name : Name) :
    g.Emitted wr (g.emit wr wd mask name) := by
  unfold Inst.emit
  cases hd : g.dead with
  | true => exact refl g
  | false =>
    simp only [Bool.false_eq_true, if_false]
    split
    · exact ⟨⟨rfl, rfl, rfl, by simp [hd], by simp [hd]⟩, rfl⟩
    · exact ⟨⟨rfl, rfl, rfl, by simp [hd], by simp [hd]⟩, rfl⟩
    · exact ⟨⟨rfl, rfl, rfl, by simp [hd], by simp [hd]⟩, rfl⟩
    · rename_i hk
      exact ⟨⟨rfl, rfl, rfl, by simp, fun _ => Or.inr ⟨_, hk⟩⟩, rfl⟩

theorem emitAll (wd : Int) (calls : List (Mask × Name)) (g : Inst) :
    g.Emitted wr (g.emitAll wr wd calls) := by
  induction calls generalizing g with
  | nil => exact refl g
  | cons c calls ih => exact (emit g wd c.1 c.2).trans (ih _)

theorem scanDir (ls : Listing) (g : Inst) (w : Watch) :
    g.Emitted wr (Inotify.scanDir wr ls g w).1 := by
  cases ls with
  | gone => exact emitAll _ _ g
  | error => exact refl g
  | entries l => exact emitAll _ _ g

theorem scanWatch (host : Host) (g : Inst) (w : Watch) :
    g.Emitted wr (Inotify.scanWatch wr host g w).1 := by
  unfold Inotify.scanWatch
  split
  · exact refl g
  · split
    · exact scanDir _ g w
    · unfold scanFile
      split
      · exact emitAll _ _ g
      · exact refl g
      · exact emitAll _ _ g

theorem scanAll (host : Host) (ws : List Watch) (g : Inst) :
    g.Emitted wr (Inotify.scanAll wr host g ws).1 := by
  induction ws generalizing g with
  | nil => exact refl g
  | cons w ws ih => exact (scanWatch host g w).trans (ih _)

theorem tellOverflow (g : Inst) : g.Emitted wr (g.tellOverflow wr) := by
  unfold Inst.tellOverflow
  split
  · have h : g.Emitted wr { g with overflow := false } := ⟨⟨rfl, rfl, rfl, id, Or.inl⟩, rfl⟩
    exact h.trans (emit _ _ _ _)
  · exact refl g

theorem pass (host : Host) (g : Inst) : g.Emitted wr (g.pass wr host) := by
  obtain ⟨⟨h₁, h₂, h₃, h₄, h₅⟩, h₆⟩ := (tellOverflow g).trans (scanAll host g.watches _)
  exact ⟨⟨h₁, h₂, h₃, h₄, h₅⟩, h₆⟩

theorem rmWatch (g : Inst) (wd : Int) : g.Emitted wr (g.rmWatch wr wd).1 := by
  obtain ⟨⟨h₁, h₂, h₃, h₄, h₅⟩, h₆⟩ := @emit wr g wd inIgnored []
  unfold Inst.rmWatch
  simp only
  split
  · exact ⟨⟨h₁, h₂, h₃, h₄, h₅⟩, h₆⟩
  · exact refl g

end Inst.Emitted

/-- The counter moves on and then only records are emitted. -/
theorem firstScan_emitted (ls : Listing) (g : Inst) (path : Name) (mask : Mask) (st : Stat) :
    Inst.Emitted wr { g with nextWd := incr g.nextWd } (firstScan wr ls g path mask st).1 := by
  unfold firstScan
  split
  · exact .scanDir ls _ _
  · exact .refl _

theorem Inst.Evolves.addWatch (ls : Listing) (res : Resources) (g : Inst) (path : Name)
    (mask : Mask) (st : Stat) : g.Evolves wr (g.addWatch wr ls res path mask st).1 := by
  obtain ⟨h₁, h₂, h₃, h₄, h₅⟩ := (@firstScan_emitted wr ls g path mask st).toEvolves
  unfold Inst.addWatch
  split
  · split
    · exact refl g
    · exact ⟨rfl, rfl, rfl, id, Or.inl⟩
  · split
    · exact refl g
    · split
      · exact refl g
      · split
        · exact ⟨rfl, rfl, rfl, id, Or.inl⟩
        · simp only
          split
          · split
            · exact ⟨h₁, h₂, h₃, h₄, h₅⟩
            · exact ⟨h₁, h₂, h₃, h₄, h₅⟩
          · exact ⟨h₁, h₂, h₃, h₄, h₅⟩

end ApeShim.Inotify
