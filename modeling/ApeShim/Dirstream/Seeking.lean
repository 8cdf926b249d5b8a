import ApeShim.Dirstream.Streams

/-!
What a directory stream has left, and where `seekdir` gets to: the enumeration on NT is
counted without its system files and sought with them, so that the two agree on a prefix
that has none.
-/

namespace ApeShim.Dirstream
open Nt Cursor

/-! ## What is left of an enumeration -/

/-- The drive can be opened, and says what it is. -/
def opens (h : Host) (index : Nat) : Bool :=
  match h.createFile false (drivePath index) with
  | .ok (.ok _) => true
  | _ => false

/-- The entries still to come from a list of drives. -/
def leftDrives (h : Host) : Nat → List Nat → List Dirent
  | _, [] => []
  | tell, index :: drives =>
      match h.createFile false (drivePath index) with
      | .ok (.ok i) =>
          ⟨i.ino, tell, 0, DT_DIR, [UInt8.ofNat (0x41 + index)]⟩ :: leftDrives h (tell + 1) drives
      | _ => leftDrives h tell drives

theorem leftDrives_cons (h : Host) (tell index : Nat) (drives : List Nat) :
    leftDrives h tell (index :: drives) =
      match h.createFile false (drivePath index) with
      | .ok (.ok i) =>
          ⟨i.ino, tell, 0, DT_DIR, [UInt8.ofNat (0x41 + index)]⟩ :: leftDrives h (tell + 1) drives
      | _ => leftDrives h tell drives := rfl

namespace NtDir

variable (h : Host) (d : NtDir)

def entry (tell : Nat) (w : FindData) : Dirent :=
  ⟨(d.look h w).ino, tell, 0, getNtDirentType w, h.recode w.cFileName⟩

/-- The entries still to come from files and the drives behind them. -/
def left (drives : List Nat) : Nat → List FindData → List Dirent
  | tell, [] => leftDrives h tell drives
  | tell, w :: ws =>
      if w.system then left drives tell ws
      else if (d.look h w).shown then d.entry h tell w :: left drives (tell + 1) ws
      else left drives (tell + 1) ws

theorem left_nil (drives : List Nat) (tell : Nat) :
    d.left h drives tell [] = leftDrives h tell drives := rfl

theorem left_cons (drives : List Nat) (tell : Nat) (w : FindData) (ws : List FindData) :
    d.left h drives tell (w :: ws) =
      if w.system then d.left h drives tell ws
      else if (d.look h w).shown then d.entry h tell w :: d.left h drives (tell + 1) ws
      else d.left h drives (tell + 1) ws := rfl

/-- A file that `readdir` shows. -/
def visible (w : FindData) : Bool := !w.system && (d.look h w).shown

/-- The drives of a stream that has synthesized none. -/
def allDrives : List Nat := if d.isroot h then h.logicalDrives else []

end NtDir

/-- The files that are counted when they are read. -/
def counted (ws : List FindData) : Nat := ws.countP fun w => !w.system

section Files

variable {h : Host} {d : NtDir}

theorem readDrives_left (tell : Nat) (drives : List Nat) (err : Option Errno) :
    (readDrives h tell drives err).ent = (leftDrives h tell drives).head? ∧
      (readDrives h tell drives err).pos.pending = [] ∧
      leftDrives h (readDrives h tell drives err).pos.tell (readDrives h tell drives err).pos.drives =
        (leftDrives h tell drives).tail := by
  induction drives generalizing err with
  | nil => exact ⟨rfl, rfl, rfl⟩
  | cons index drives ih =>
    rw [readDrives, leftDrives_cons]
    rcases h.createFile false (drivePath index) with e | ⟨e | i⟩
    · exact ih (some e)
    · exact ih (some e)
    · exact ⟨rfl, rfl, rfl⟩

/-- A cursor's rest. -/
def NtPos.left (h : Host) (d : NtDir) (s : NtPos) : List Dirent := d.left h s.drives s.tell s.pending

theorem readFiles_left (drives : List Nat) (ws : List FindData) (tell : Nat) (err : Option Errno) :
    (d.readFiles h drives tell ws err).ent = (d.left h drives tell ws).head? ∧
      (d.readFiles h drives tell ws err).pos.left h d = (d.left h drives tell ws).tail := by
  induction ws generalizing tell err with
  | nil =>
    obtain ⟨hent, hpending, hleft⟩ := readDrives_left (h := h) tell drives err
    refine ⟨hent, ?_⟩
    rw [NtDir.readFiles, NtPos.left, hpending]
    exact hleft
  | cons w ws ih =>
    rw [NtDir.readFiles, NtDir.left_cons]
    by_cases hsys : w.system = true
    · rw [if_pos hsys, if_pos hsys]
      exact ih tell err
    · rw [if_neg hsys, if_neg hsys]
      by_cases hshown : (d.look h w).shown = true
      · simp only [hshown, if_true]
        exact ⟨rfl, rfl⟩
      · simp only [hshown]
        exact ih (tell + 1) _

theorem leftDrives_filter (tell : Nat) (drives : List Nat) :
    leftDrives h tell drives = leftDrives h tell (drives.filter (opens h)) := by
  induction drives generalizing tell with
  | nil => rfl
  | cons index drives ih =>
    rcases hc : h.createFile false (drivePath index) with e | ⟨e | i⟩
    · rw [List.filter_cons_of_neg (by simp [opens, hc]), leftDrives_cons, hc]
      exact ih tell
    · rw [List.filter_cons_of_neg (by simp [opens, hc]), leftDrives_cons, hc]
      exact ih tell
    · rw [List.filter_cons_of_pos (by simp [opens, hc]), leftDrives_cons, leftDrives_cons, hc]
      exact congrArg _ (ih (tell + 1))

theorem leftDrives_length (tell : Nat) (drives : List Nat) :
    (leftDrives h tell drives).length = (drives.filter (opens h)).length := by
  induction drives generalizing tell with
  | nil => rfl
  | cons index drives ih =>
    rcases hc : h.createFile false (drivePath index) with e | ⟨e | i⟩
    · rw [List.filter_cons_of_neg (by simp [opens, hc]), leftDrives_cons, hc]
      exact ih tell
    · rw [List.filter_cons_of_neg (by simp [opens, hc]), leftDrives_cons, hc]
      exact ih tell
    · rw [List.filter_cons_of_pos (by simp [opens, hc]), leftDrives_cons, hc, List.length_cons,
        List.length_cons]
      exact congrArg _ (ih (tell + 1))

theorem left_congr {drives drives' : List Nat}
    (hd : drives.filter (opens h) = drives'.filter (opens h)) (tell : Nat) (ws : List FindData) :
    d.left h drives tell ws = d.left h drives' tell ws := by
  induction ws generalizing tell with
  | nil => rw [NtDir.left_nil, NtDir.left_nil, leftDrives_filter, hd, ← leftDrives_filter]
  | cons w ws ih => rw [NtDir.left_cons, NtDir.left_cons, ih, ih]

theorem left_length (drives : List Nat) (tell : Nat) (ws : List FindData) :
    (d.left h drives tell ws).length =
      (ws.filter (d.visible h)).length + (drives.filter (opens h)).length := by
  induction ws generalizing tell with
  | nil => rw [NtDir.left_nil, leftDrives_length, List.filter_nil, List.length_nil, Nat.zero_add]
  | cons w ws ih =>
    rw [NtDir.left_cons]
    by_cases hsys : w.system = true
    · rw [if_pos hsys, ih, List.filter_cons_of_neg (by simp [NtDir.visible, hsys])]
    · rw [if_neg hsys]
      by_cases hshown : (d.look h w).shown = true
      · rw [if_pos hshown, List.length_cons, ih,
          List.filter_cons_of_pos (by simp [NtDir.visible, hsys, hshown]), List.length_cons]
        omega
      · rw [if_neg hshown, ih, List.filter_cons_of_neg (by simp [NtDir.visible, hsys, hshown])]

/-- Files that are not shown only count. -/
theorem left_append {pre : List FindData} (hpre : pre.filter (d.visible h) = [])
    (drives : List Nat) (tell : Nat) (ws : List FindData) :
    d.left h drives tell (pre ++ ws) = d.left h drives (tell + counted pre) ws := by
  induction pre generalizing tell with
  | nil => rfl
  | cons w pre ih =>
    by_cases hvis : d.visible h w = true
    · rw [List.filter_cons_of_pos hvis] at hpre
      cases hpre
    · rw [List.filter_cons_of_neg hvis] at hpre
      rw [List.cons_append, NtDir.left_cons, counted, List.countP_cons]
      by_cases hsys : w.system = true
      · rw [if_pos hsys, ih hpre]
        simp [counted, hsys]
      · have hshown : (d.look h w).shown ≠ true := by
          simpa [NtDir.visible, hsys] using hvis
        rw [if_neg hsys, if_neg hshown, ih hpre, Nat.add_assoc, Nat.add_comm 1]
        simp [counted, hsys]

theorem leftDrives_inj {tell tell' : Nat} {drives : List Nat} (hne : leftDrives h tell drives ≠ [])
    (heq : leftDrives h tell drives = leftDrives h tell' drives) : tell = tell' := by
  induction drives with
  | nil => exact absurd rfl hne
  | cons index drives ih =>
    rw [leftDrives_cons] at hne heq
    rw [leftDrives_cons] at heq
    rcases hc : h.createFile false (drivePath index) with e | ⟨e | i⟩
    · rw [hc] at hne heq
      exact ih hne heq
    · rw [hc] at hne heq
      exact ih hne heq
    · rw [hc] at heq
      exact congrArg Dirent.off (List.cons.inj heq).1

/-- What is left says what the first of it counts from. -/
theorem left_inj {drives : List Nat} {tell tell' : Nat} {ws : List FindData}
    (hne : d.left h drives tell ws ≠ [])
    (heq : d.left h drives tell ws = d.left h drives tell' ws) : tell = tell' := by
  induction ws generalizing tell tell' with
  | nil => exact leftDrives_inj hne heq
  | cons w ws ih =>
    rw [NtDir.left_cons] at hne heq
    rw [NtDir.left_cons] at heq
    by_cases hsys : w.system = true
    · rw [if_pos hsys] at hne
      rw [if_pos hsys, if_pos hsys] at heq
      exact ih hne heq
    · rw [if_neg hsys] at hne
      rw [if_neg hsys, if_neg hsys] at heq
      by_cases hshown : (d.look h w).shown = true
      · rw [if_pos hshown, if_pos hshown] at heq
        exact congrArg Dirent.off (List.cons.inj heq).1
      · rw [if_neg hshown] at hne
        rw [if_neg hshown, if_neg hshown] at heq
        exact Nat.succ_inj.mp (ih hne heq)

end Files

/-! ## Where an enumeration can be -/

/-- A cursor of a stream on `d`. -/
structure NtPos.At (h : Host) (d : NtDir) (s : NtPos) : Prop where
  pending : s.pending <:+ d.files
  drives : s.drives <:+ d.allDrives h
  whole : s.pending ≠ [] → s.drives = d.allDrives h
  tell : s.tell + (s.drives.filter (opens h)).length + s.pending.length ≤
    d.files.length + ((d.allDrives h).filter (opens h)).length

section Positions

variable {h : Host} {d : NtDir}

theorem at_start : NtPos.At h d ⟨0, d.files, d.allDrives h⟩ :=
  ⟨List.suffix_refl _, List.suffix_refl _, fun _ => rfl, by simp [Nat.add_comm]⟩

theorem readDrives_at {tell : Nat} {drives : List Nat} (err : Option Errno)
    (hs : NtPos.At h d ⟨tell, [], drives⟩) : NtPos.At h d (readDrives h tell drives err).pos := by
  induction drives generalizing err with
  | nil => exact hs
  | cons index drives ih =>
    have hsuffix : drives <:+ d.allDrives h := (List.suffix_cons index drives).trans hs.drives
    have htell := hs.tell
    simp only at htell
    rw [readDrives]
    rcases hc : h.createFile false (drivePath index) with e | ⟨e | i⟩
    · rw [List.filter_cons_of_neg (by simp [opens, hc])] at htell
      exact ih (some e) ⟨hs.pending, hsuffix, fun hne => absurd rfl hne, htell⟩
    · rw [List.filter_cons_of_neg (by simp [opens, hc])] at htell
      exact ih (some e) ⟨hs.pending, hsuffix, fun hne => absurd rfl hne, htell⟩
    · rw [List.filter_cons_of_pos (by simp [opens, hc]), List.length_cons] at htell
      exact ⟨hs.pending, hsuffix, fun hne => absurd rfl hne, by simp only; omega⟩

theorem NtPos.At.skip {tell : Nat} {w : FindData} {ws : List FindData} {drives : List Nat} (k : Nat)
    (hk : k ≤ 1) (hs : NtPos.At h d ⟨tell, w :: ws, drives⟩) :
    NtPos.At h d ⟨tell + k, ws, drives⟩ := by
  have htell := hs.tell
  simp only [List.length_cons] at htell
  exact ⟨(List.suffix_cons w ws).trans hs.pending, hs.drives,
    fun _ => hs.whole (List.cons_ne_nil _ _), by simp only; omega⟩

theorem readFiles_at {tell : Nat} {ws : List FindData} {drives : List Nat} (err : Option Errno)
    (hs : NtPos.At h d ⟨tell, ws, drives⟩) :
    NtPos.At h d (d.readFiles h drives tell ws err).pos := by
  induction ws generalizing tell err with
  | nil => exact readDrives_at err hs
  | cons w ws ih =>
    rw [NtDir.readFiles]
    by_cases hsys : w.system = true
    · rw [if_pos hsys]
      exact ih err (hs.skip 0 (Nat.zero_le _))
    · rw [if_neg hsys]
      by_cases hshown : (d.look h w).shown = true
      · simp only [hshown, if_true]
        exact hs.skip 1 (Nat.le_refl _)
      · simp only [hshown]
        exact ih _ (hs.skip 1 (Nat.le_refl _))

theorem NtPos.At.drives_eq {s : NtPos} (hs : s.At h d) :
    (if d.isroot h then h.logicalDrives else s.drives) = d.allDrives h := by
  rw [NtDir.allDrives]
  split
  · rfl
  · rename_i hroot
    have := hs.drives
    rw [NtDir.allDrives, if_neg hroot] at this
    exact List.suffix_nil.mp this

theorem rewinddir_eq {s : NtPos} (hs : s.At h d) :
    d.rewinddir h s = ⟨0, d.files, d.allDrives h⟩ := by
  rw [NtDir.rewinddir, hs.drives_eq]

theorem nextLoop_eq (n tell : Nat) (w : FindData) (ws : List FindData) :
    nextLoop n tell w ws =
      if n < (w :: ws).length then (tell + n, (w :: ws).drop n) else (tell + ws.length, []) := by
  induction n generalizing tell w ws with
  | zero => rw [nextLoop, if_pos (by simp), Nat.add_zero, List.drop_zero]
  | succ n ih =>
    cases ws with
    | nil => rw [nextLoop, if_neg (by simp), List.length_nil, Nat.add_zero]
    | cons v ws =>
      rw [nextLoop, ih, List.drop_succ_cons, @List.length_cons _ w (v :: ws), List.length_cons]
      simp only [Nat.add_lt_add_iff_right, Nat.add_assoc, Nat.add_comm 1]

/-- Where counting to `t` gets to. -/
def NtDir.sought (h : Host) (d : NtDir) (t : Nat) : NtPos :=
  if t < d.files.length then ⟨t, d.files.drop t, d.allDrives h⟩
  else ⟨d.rest.length, [], d.allDrives h⟩

theorem seekdir_eq {s : NtPos} (hs : s.At h d) (t : Int) : d.seekdir h t s = d.sought h t.toNat := by
  have hloop := nextLoop_eq t.toNat 0 d.first d.rest
  rw [Nat.zero_add, Nat.zero_add] at hloop
  rw [NtDir.seekdir, hloop, hs.drives_eq, NtDir.sought]
  by_cases ht : t.toNat < (d.first :: d.rest).length
  · rw [if_pos ht]
    exact (if_pos ht).symm
  · rw [if_neg ht]
    exact (if_neg ht).symm

theorem at_sought (t : Nat) : (d.sought h t).At h d := by
  rw [NtDir.sought]
  split
  · refine ⟨List.drop_suffix _ _, List.suffix_refl _, fun _ => rfl, ?_⟩
    simp only [List.length_drop]
    omega
  · refine ⟨List.nil_suffix, List.suffix_refl _, fun _ => rfl, ?_⟩
    simp only [NtDir.files, List.length_cons, List.length_nil]
    omega

theorem nt_reads : Reads (fun s => ((d.readdirNt h s).ent, (d.readdirNt h s).pos))
    (NtPos.At h d) (NtPos.left h d) where
  head s _ := (readFiles_left s.drives s.pending s.tell none).1
  tail s _ := (readFiles_left s.drives s.pending s.tell none).2
  keeps _ hs := readFiles_at none hs

/-! ## Seeking back, on NT -/

/-- `seekdir` gets back to where `telldir` was asked: it is inside the enumeration, on the
file that is up next when system files are passed over, and no drive has been given out.
Or nothing is left, neither here nor where `seekdir` gets to. -/
def NtPos.SeekOk (h : Host) (d : NtDir) (s : NtPos) : Prop :=
  (s.tell < d.files.length ∧
    (d.files.drop s.tell).dropWhile FindData.system = s.pending.dropWhile FindData.system ∧
    s.drives.filter (opens h) = (d.allDrives h).filter (opens h)) ∨
  ((d.files.drop s.tell).filter (d.visible h) = [] ∧ (d.allDrives h).filter (opens h) = [])

theorem dropWhile_append_system {pre ws : List FindData}
    (heq : (pre ++ ws).dropWhile FindData.system = ws.dropWhile FindData.system) :
    ∀ w ∈ pre, w.system = true := by
  induction pre with
  | nil => nofun
  | cons w pre ih =>
    by_cases hsys : w.system = true
    · rw [List.cons_append, List.dropWhile_cons_of_pos hsys] at heq
      intro v hv
      rcases List.mem_cons.mp hv with rfl | hv
      · exact hsys
      · exact ih heq v hv
    · rw [List.cons_append, List.dropWhile_cons_of_neg hsys] at heq
      have hlen := congrArg List.length heq
      have := List.length_dropWhile_le FindData.system ws
      simp only [List.length_cons, List.length_append] at hlen
      omega

theorem counted_eq_zero {pre : List FindData} : counted pre = 0 ↔ ∀ w ∈ pre, w.system = true := by
  simp [counted, List.countP_eq_zero]

/-- What is pending lies behind the position that `seekdir` counts to. -/
theorem NtPos.At.suffix_drop {s : NtPos} (hs : s.At h d) : s.pending <:+ d.files.drop s.tell := by
  by_cases hne : s.pending = []
  · rw [hne]
    exact List.nil_suffix
  · obtain ⟨pre, hpre⟩ := hs.pending
    have htell := hs.tell
    have hlen := congrArg List.length hpre
    rw [hs.whole hne] at htell
    rw [List.length_append] at hlen
    refine ⟨pre.drop s.tell, ?_⟩
    rw [← hpre, List.drop_append_of_le_length (by omega)]

theorem left_sought (t : Nat) : (d.sought h t).left h d =
    if t < d.files.length then d.left h (d.allDrives h) t (d.files.drop t)
    else d.left h (d.allDrives h) d.rest.length [] := by
  rw [NtDir.sought]
  split <;> rfl

theorem NtPos.At.left_length {s : NtPos} : (s.left h d).length =
    (s.pending.filter (d.visible h)).length + (s.drives.filter (opens h)).length :=
  Dirstream.left_length s.drives s.tell s.pending

/-- If as much is left, nothing shown lies between, and the drives are all there. -/
theorem NtPos.At.nothing_between {s : NtPos} (hs : s.At h d) {pre : List FindData}
    (hlen : ((pre ++ s.pending).filter (d.visible h)).length +
      ((d.allDrives h).filter (opens h)).length = (s.left h d).length) :
    pre.filter (d.visible h) = [] ∧
      s.drives.filter (opens h) = (d.allDrives h).filter (opens h) := by
  have hsuffix := hs.drives.filter (opens h)
  have hle := hsuffix.length_le
  rw [NtPos.At.left_length, List.filter_append, List.length_append] at hlen
  exact ⟨List.eq_nil_of_length_eq_zero (by omega), hsuffix.eq_of_length (by omega)⟩

theorem seekOk_of_left_eq {s : NtPos} (hs : s.At h d)
    (heq : (d.sought h s.tell).left h d = s.left h d) : s.SeekOk h d := by
  obtain ⟨pre, hpre⟩ := hs.suffix_drop
  have hlen := congrArg List.length heq
  rw [left_sought] at heq hlen
  by_cases ht : s.tell < d.files.length
  · rw [if_pos ht, ← hpre] at heq hlen
    rw [Dirstream.left_length] at hlen
    obtain ⟨hnone, hdrives⟩ := hs.nothing_between hlen
    have hleft : s.left h d = d.left h (d.allDrives h) s.tell s.pending := left_congr hdrives _ _
    rw [left_append hnone, hleft] at heq
    by_cases hnil : d.left h (d.allDrives h) (s.tell + counted pre) s.pending = []
    · have hzero := congrArg List.length hnil
      rw [Dirstream.left_length, List.length_nil] at hzero
      refine Or.inr ⟨?_, List.eq_nil_of_length_eq_zero (by omega)⟩
      rw [← hpre, List.filter_append, hnone, List.nil_append]
      exact List.eq_nil_of_length_eq_zero (by omega)
    · have hcount : counted pre = 0 := by
        have := left_inj hnil heq
        omega
      have hsys := counted_eq_zero.mp hcount
      refine Or.inl ⟨ht, ?_, hdrives⟩
      rw [← hpre, List.dropWhile_append_of_pos hsys]
  · rw [if_neg ht] at heq hlen
    have hdrop : d.files.drop s.tell = [] := List.drop_eq_nil_of_le (by omega)
    rw [hdrop] at hpre
    obtain ⟨hpre, hpending⟩ := List.append_eq_nil_iff.mp hpre
    have hlen : (([] ++ s.pending).filter (d.visible h)).length +
        ((d.allDrives h).filter (opens h)).length = (s.left h d).length := by
      rw [← hlen, Dirstream.left_length, hpending]
      rfl
    obtain ⟨-, hdrives⟩ := hs.nothing_between hlen
    have hleft : s.left h d = d.left h (d.allDrives h) s.tell [] := by
      rw [← hpending]
      exact left_congr hdrives _ _
    rw [hleft] at heq
    by_cases hnil : d.left h (d.allDrives h) d.rest.length [] = []
    · have hzero := congrArg List.length hnil
      rw [Dirstream.left_length, List.length_nil] at hzero
      refine Or.inr ⟨by rw [hdrop]; rfl, List.eq_nil_of_length_eq_zero (by omega)⟩
    · -- the count stops one short of the files there are
      have := left_inj hnil heq
      simp only [NtDir.files, List.length_cons] at ht
      omega

theorem left_eq_of_seekOk {s : NtPos} (hs : s.At h d) (hok : s.SeekOk h d) :
    (d.sought h s.tell).left h d = s.left h d := by
  obtain ⟨pre, hpre⟩ := hs.suffix_drop
  rw [left_sought]
  rcases hok with ⟨ht, hnext, hdrives⟩ | ⟨hfiles, hdrives⟩
  · rw [← hpre] at hnext
    have hsys := dropWhile_append_system hnext
    have hnone : pre.filter (d.visible h) = [] := by
      refine List.filter_eq_nil_iff.mpr fun w hw => ?_
      simp [NtDir.visible, hsys w hw]
    rw [if_pos ht, ← hpre, left_append hnone, counted_eq_zero.mpr hsys]
    exact left_congr hdrives.symm _ _
  · have hpending : s.pending.filter (d.visible h) = [] := by
      rw [← hpre, List.filter_append] at hfiles
      exact (List.append_eq_nil_iff.mp hfiles).2
    have hnone : s.drives.filter (opens h) = [] :=
      List.suffix_nil.mp (hdrives ▸ hs.drives.filter (opens h))
    have hs : s.left h d = [] := by
      refine List.eq_nil_of_length_eq_zero ?_
      rw [NtPos.At.left_length, hpending, hnone]
      rfl
    rw [hs]
    refine List.eq_nil_of_length_eq_zero ?_
    split
    · rw [Dirstream.left_length, hfiles, hdrives]
      rfl
    · rw [Dirstream.left_length, hdrives]
      rfl

end Positions

end ApeShim.Dirstream
