import ApeShim.Dirstream.Seeking

/-!
What holds of every directory stream, however it was read and moved before: when
`readdir_r` copies what `readdir` returns, and when `seekdir` gets back to where `telldir`
was asked.
-/

namespace ApeShim.Dirstream
open Nt Cursor

/-! ## The zip store -/

namespace ZipDir

variable (z : ZipDir)

def start : ZipPos := ⟨0, z.cdirOffset, [], 0⟩

theorem pass_tell (s : ZipPos) :
    (z.pass s).2.tell = s.tell + 1 ∧ (z.pass s).2.reclen = s.reclen := by
  rw [pass]
  split
  · exact ⟨rfl, rfl⟩
  · split
    · exact ⟨rfl, rfl⟩
    · dsimp only
      split <;> exact ⟨rfl, rfl⟩

theorem readLoop_tell (n : Nat) (s : ZipPos) :
    ((z.readLoop n s).1 = none → (z.readLoop n s).2.tell = s.tell + n) ∧
      ((z.readLoop n s).1 ≠ none → s.tell < (z.readLoop n s).2.tell) ∧
      (z.readLoop n s).2.tell ≤ s.tell + n ∧ (z.readLoop n s).2.reclen = s.reclen := by
  induction n generalizing s with
  | zero => exact ⟨fun _ => rfl, fun hne => absurd rfl hne, Nat.le_refl _, rfl⟩
  | succ n ih =>
    obtain ⟨htell, hreclen⟩ := z.pass_tell s
    rw [readLoop]
    rcases hp : z.pass s with ⟨e | e, s'⟩
    · rw [hp] at htell hreclen
      obtain ⟨hnone, hsome, hle, hkept⟩ := ih s'
      dsimp only at htell hreclen ⊢
      rw [htell] at hnone hsome hle
      exact ⟨fun h => by rw [hnone h]; omega, fun h => by have := hsome h; omega, by omega,
        hkept.trans hreclen⟩
    · rw [hp] at htell hreclen
      dsimp only at htell hreclen ⊢
      exact ⟨nofun, fun _ => by omega, by omega, hreclen⟩

theorem readdirZipos_counts : Counts z.readdirZipos ZipPos.tell (z.records + 2) where
  entry s e s' hn := by
    obtain ⟨-, hsome, hle, -⟩ := z.readLoop_tell (z.records + 2 - s.tell) s
    rw [readdirZipos] at hn
    rw [hn] at hsome hle
    have hlt := hsome nofun
    dsimp only at hlt hle
    omega
  moved s s' hn := by
    obtain ⟨hnone, -, hle, -⟩ := z.readLoop_tell (z.records + 2 - s.tell) s
    rw [readdirZipos] at hn
    by_cases hrest : z.records + 2 - s.tell = 0
    · rw [hrest] at hn
      exact Or.inr (congrArg Prod.snd hn).symm
    · rw [hn] at hnone
      have htell := hnone rfl
      dsimp only at htell
      omega
  stays s s' hn := by
    obtain ⟨hnone, -⟩ := z.readLoop_tell (z.records + 2 - s.tell) s
    rw [readdirZipos] at hn
    rw [hn] at hnone
    have htell := hnone rfl
    dsimp only at htell
    have hrest : z.records + 2 - s'.tell = 0 := by omega
    rw [readdirZipos, hrest]
    rfl

theorem iterate_reclen (k : Nat) : ((advance z.readdirZipos)^[k] z.start).reclen = 0 := by
  induction k with
  | zero => rfl
  | succ k ih =>
    rw [Function.iterate_succ_apply', advance, readdirZipos]
    exact (z.readLoop_tell _ _).2.2.2.trans ih

/-- The headers still to be looked at. -/
def unread (z : ZipDir) : Nat → Nat → List Cfile
  | 0, _ => []
  | n + 1, offset => z.cfileAt offset :: unread z n (offset + (z.cfileAt offset).hdrsize)

/-- A header that shows nothing new. -/
def passedOver (found : List CStr) (c : Cfile) : Prop := z.nameOf c = [] ∨ z.nameOf c ∈ found

/-- The end: every header left is of another directory, or of a name given out before. -/
def Done (s : ZipPos) : Prop :=
  2 ≤ s.tell ∧ ∀ c ∈ z.unread (z.records + 2 - s.tell) s.offset, z.passedOver s.found c

theorem readLoop_none (n : Nat) {s : ZipPos} (hs : 2 ≤ s.tell) :
    (z.readLoop n s).1 = none ↔ ∀ c ∈ z.unread n s.offset, z.passedOver s.found c := by
  induction n generalizing s with
  | zero => simp [readLoop, unread]
  | succ n ih =>
    rw [readLoop, unread, List.forall_mem_cons, pass, if_neg (by omega), if_neg (by omega)]
    dsimp only
    by_cases hnew : z.nameOf (z.cfileAt s.offset) ≠ [] ∧ z.nameOf (z.cfileAt s.offset) ∉ s.found
    · rw [if_pos hnew]
      simp only [reduceCtorEq, false_iff, passedOver]
      rintro ⟨hnil | hmem, -⟩
      · exact hnew.1 hnil
      · exact hnew.2 hmem
    · rw [if_neg hnew]
      have hover : z.passedOver s.found (z.cfileAt s.offset) := by
        rw [passedOver]
        by_cases hnil : z.nameOf (z.cfileAt s.offset) = []
        · exact Or.inl hnil
        · exact Or.inr (by_contra fun hmem => hnew ⟨hnil, hmem⟩)
      refine (ih (s := ⟨s.tell + 1, _, s.found, s.reclen⟩) (by simp only; omega)).trans ?_
      exact (and_iff_right hover).symm

theorem readLoop_dots {n : Nat} {s : ZipPos} (hs : s.tell < 2) :
    (z.readLoop (n + 1) s).1 ≠ none := by
  rw [readLoop, pass]
  by_cases h0 : s.tell = 0
  · rw [if_pos h0]
    nofun
  · rw [if_neg h0, if_pos (by omega)]
    nofun

theorem readdirZipos_none (s : ZipPos) : (z.readdirZipos s).1 = none ↔ z.Done s := by
  rw [readdirZipos, Done]
  by_cases hs : 2 ≤ s.tell
  · rw [z.readLoop_none _ hs, and_iff_right hs]
  · have hrest : z.records + 2 - s.tell = z.records + 1 - s.tell + 1 := by omega
    rw [hrest]
    exact iff_of_false (z.readLoop_dots (by omega)) fun h => hs h.1

theorem readLoop_reclen (n : Nat) (s : ZipPos) :
    ∀ e ∈ (z.readLoop n s).1, e.reclen = s.reclen := by
  induction n generalizing s with
  | zero => nofun
  | succ n ih =>
    have hkept := (z.pass_tell s).2
    have hent : ∀ e ∈ (z.pass s).1, e.reclen = s.reclen := by
      intro e he
      rw [pass] at he
      split at he
      · cases he
        rfl
      · split at he
        · cases he
          rfl
        · dsimp only at he
          split at he
          · cases he
            rfl
          · cases he
    rw [readLoop]
    rcases hp : z.pass s with ⟨e | e, s'⟩
    · rw [hp] at hkept
      intro e he
      exact (ih s' e he).trans hkept
    · rw [hp] at hent
      exact hent

end ZipDir

/-! ## Streams -/

/-- Where a stream can be. -/
def Dir.At (h : Host) : Dir → Prop
  | .nt d s => s.At h d
  | .zip z s => ∃ k, s = (advance z.readdirZipos)^[k] z.start
  | .virt ents s => s.tell = s.idx ∧ s.idx ≤ ents.length

def Dir.listing : Dir → Listing
  | .nt d _ => .nt d
  | .zip z _ => .zip z
  | .virt ents _ => .virt ents

/-- Where `seekdir` gets to. -/
def Listing.sought (h : Host) (t : Int) : Listing → Dir
  | .nt d => .nt d (d.sought h t.toNat)
  | .zip z => .zip z (seekLoop z.readdirZipos ZipPos.tell t (z.records + 3) z.start)
  | .virt ents => .virt ents (seekdirVirt ents t)

section Streams

variable {h : Host}

theorem at_opened (l : Listing) : (l.opened h).At h := by
  cases l with
  | nt d => exact at_start
  | zip z => exact ⟨0, rfl⟩
  | virt ents => exact ⟨rfl, Nat.zero_le _⟩

theorem rewinddir_start {z : ZipDir} {s : ZipPos} (hs : s.reclen = 0) :
    z.rewinddir s = z.start := by
  rw [ZipDir.rewinddir, ZipDir.start, hs]

theorem seekdir_sought {d : Dir} (hd : d.At h) (t : Int) : d.seekdir h t = d.listing.sought h t := by
  cases d with
  | nt d s => exact congrArg (Dir.nt d) (seekdir_eq hd t)
  | zip z s =>
    obtain ⟨k, rfl⟩ := hd
    refine congrArg (Dir.zip z) ?_
    rw [ZipDir.seekdir, rewinddir_start (z.iterate_reclen k)]
  | virt ents s => rfl

theorem at_sought_dir (t : Int) (l : Listing) : (l.sought h t).At h := by
  cases l with
  | nt d => exact at_sought _
  | zip z => exact seekLoop_eq_iterate _ _ _ _ _
  | virt ents =>
    refine ⟨rfl, ?_⟩
    simp only [seekdirVirt]
    split
    · exact Nat.zero_le _
    · split
      · exact Nat.le_refl _
      · omega

theorem readdirImpl_at {d : Dir} (hd : d.At h) : (d.readdirImpl h).pos.At h := by
  cases d with
  | nt d s => exact readFiles_at none hd
  | zip z s =>
    obtain ⟨k, rfl⟩ := hd
    refine ⟨k + 1, ?_⟩
    rw [Function.iterate_succ_apply']
    rfl
  | virt ents s =>
    simp only [Dir.readdirImpl, readdirVirt]
    rcases hi : ents[s.idx]? with _ | e
    · exact hd
    · obtain ⟨hlt, -⟩ := List.getElem?_eq_some_iff.mp hi
      exact ⟨rfl, hlt⟩

theorem readdirR_pos (output : Dirent) (d : Dir) :
    (d.readdirR h output).2 = (d.readdirImpl h).pos := by
  rw [Dir.readdirR]
  split <;> rfl

theorem readdirImpl_listing (d : Dir) : (d.readdirImpl h).pos.listing = d.listing := by
  cases d <;> rfl

theorem step_at {d : Dir} (hd : d.At h) (op : Op) :
    (step h d op).At h ∧ (step h d op).listing = d.listing := by
  cases op with
  | readdir => exact ⟨readdirImpl_at hd, readdirImpl_listing d⟩
  | readdirR output =>
    rw [step, readdirR_pos]
    exact ⟨readdirImpl_at hd, readdirImpl_listing d⟩
  | telldir => exact ⟨hd, rfl⟩
  | seekdir t =>
    refine ⟨?_, by cases d <;> rfl⟩
    rw [step, seekdir_sought hd]
    exact at_sought_dir t _
  | rewinddir =>
    cases d with
    | nt d s =>
      refine ⟨?_, rfl⟩
      rw [step, Dir.rewinddir, rewinddir_eq hd]
      exact at_start
    | zip z s =>
      obtain ⟨k, rfl⟩ := hd
      exact ⟨⟨0, rewinddir_start (z.iterate_reclen k)⟩, rfl⟩
    | virt ents s => exact ⟨⟨rfl, Nat.zero_le _⟩, rfl⟩

/-- Every run keeps a stream on its listing. -/
theorem run_at {d : Dir} (hd : d.At h) (ops : List Op) :
    (run h d ops).At h ∧ (run h d ops).listing = d.listing := by
  induction ops generalizing d with
  | nil => exact ⟨hd, rfl⟩
  | cons op ops ih =>
    obtain ⟨hat, hlisting⟩ := step_at hd op
    obtain ⟨hat', hlisting'⟩ := ih hat
    exact ⟨hat', hlisting'.trans hlisting⟩

end Streams

/-! ## Copies -/

/-- `readdir_r` copies exactly the entry that `readdir` would have returned. -/
def Dir.Copies (h : Host) (d : Dir) : Prop :=
  ∀ output, (d.readdirR h output).1 =
    match (d.readdir h).1 with
    | some e => Result.entry e
    | none => Result.null

/-- The listing is in memory; or nothing is left to return, and no error on the way. -/
def Dir.CopyOk : Dir → Prop
  | .nt d s => (∀ w ∈ s.pending, w.system = true ∨ d.join w.cFileName = none) ∧ s.drives = []
  | .zip z s => z.Done s
  | .virt _ _ => True

section Copies

variable {h : Host}

theorem copies_of_unsized {d : Dir} (hsize : ∀ e ∈ (d.readdirImpl h).ent, e.reclen = 0) :
    d.Copies h ↔ (d.readdirImpl h).ent = none ∧ (d.readdirImpl h).err = none := by
  rw [Dir.Copies]
  simp only [Dir.readdirR, Dir.readdir]
  rcases hent : (d.readdirImpl h).ent with _ | e
  · rcases herr : (d.readdirImpl h).err with _ | x
    · exact iff_of_true (fun _ => rfl) ⟨rfl, rfl⟩
    · exact iff_of_false (fun hall => nomatch hall ⟨0, 0, 0, 0, []⟩) (fun hno => nomatch hno.2)
  · refine iff_of_false (fun hall => ?_) (fun hno => nomatch hno.1)
    -- an output that differs from the entry stays as it was
    have hother := hall { e with off := e.off + 1 }
    rcases herr : (d.readdirImpl h).err with _ | x
    · simp only [herr, hsize e hent, ne_eq, not_true_eq_false, if_false, Dir.Result.entry.injEq] at hother
      have := congrArg Dirent.off hother
      simp only at this
      omega
    · simp only [herr] at hother
      cases hother

theorem readDrives_silent (tell : Nat) (drives : List Nat) (err : Option Errno) :
    (readDrives h tell drives err).ent = none ∧ (readDrives h tell drives err).err = none ↔
      drives = [] ∧ err = none := by
  induction drives generalizing err with
  | nil => simp [readDrives]
  | cons index drives ih =>
    rw [readDrives]
    rcases h.createFile false (drivePath index) with e | ⟨e | i⟩
    · simp [ih]
    · simp [ih]
    · simp

theorem look_silent (d : NtDir) (w : FindData) :
    (d.look h w).shown = false ∧ (d.look h w).err = none ↔ d.join w.cFileName = none := by
  rw [NtDir.look]
  rcases d.join w.cFileName with _ | jp
  · simp
  · rcases hc : h.createFile true jp with e | ⟨e | i⟩ <;> simp [hc]

theorem readFiles_silent {d : NtDir} (drives : List Nat) (ws : List FindData) (tell : Nat)
    (err : Option Errno) :
    (d.readFiles h drives tell ws err).ent = none ∧ (d.readFiles h drives tell ws err).err = none ↔
      ((∀ w ∈ ws, w.system = true ∨ d.join w.cFileName = none) ∧ drives = []) ∧ err = none := by
  induction ws generalizing tell err with
  | nil =>
    rw [NtDir.readFiles, readDrives_silent]
    simp
  | cons w ws ih =>
    rw [NtDir.readFiles, List.forall_mem_cons]
    by_cases hsys : w.system = true
    · rw [if_pos hsys, ih, and_iff_right (Or.inl hsys)]
    · rw [if_neg hsys]
      rw [← look_silent (h := h)]
      rcases d.look h w with ⟨ino, shown, err'⟩
      cases shown with
      | true => simp [hsys]
      | false =>
        simp only [Bool.false_eq_true, if_false, ih, Option.or_eq_none_iff, hsys, true_and, false_or]
        tauto

theorem readFiles_reclen {d : NtDir} (drives : List Nat) (ws : List FindData) (tell : Nat)
    (err : Option Errno) : ∀ e ∈ (d.readFiles h drives tell ws err).ent, e.reclen = 0 := by
  rw [(readFiles_left drives ws tell err).1]
  induction ws generalizing tell with
  | nil =>
    rw [NtDir.left_nil]
    induction drives with
    | nil => exact fun e he => absurd he (Option.not_mem_none e)
    | cons index drives ih =>
      rw [leftDrives_cons]
      rcases h.createFile false (drivePath index) with e | ⟨e | i⟩
      · exact ih
      · exact ih
      · rintro e ⟨⟩
        rfl
  | cons w ws ih =>
    rw [NtDir.left_cons]
    split
    · exact ih tell
    · split
      · rintro e ⟨⟩
        rfl
      · exact ih (tell + 1)

theorem dir_copies_iff {d : Dir} (hd : d.At h) : d.Copies h ↔ d.CopyOk := by
  cases d with
  | nt d s =>
    have hsize := readFiles_reclen (h := h) (d := d) s.drives s.pending s.tell none
    refine (copies_of_unsized (d := .nt d s) hsize).trans ?_
    exact (readFiles_silent s.drives s.pending s.tell none).trans (and_iff_left rfl)
  | zip z s =>
    obtain ⟨k, rfl⟩ := hd
    refine (copies_of_unsized (d := .zip z _) fun e he => ?_).trans ?_
    · exact (z.readLoop_reclen _ _ e he).trans (z.iterate_reclen k)
    · exact (and_iff_left rfl).trans (z.readdirZipos_none _)
  | virt ents s =>
    refine iff_of_true (fun output => ?_) trivial
    simp only [Dir.readdirR, Dir.readdir, Dir.readdirImpl, readdirVirt]
    rcases ents[s.idx]? with _ | e <;> rfl

end Copies

/-! ## Seeking back -/

/-- Whatever is done in between, after `seekdir` to what `telldir` says here the reads
return what they would return now. -/
def Dir.SeeksBack (h : Host) (d : Dir) : Prop :=
  ∀ ops n, nth (Dir.readdir h) ((run h d ops).seekdir h d.telldir) n = nth (Dir.readdir h) d n

/-- On NT, where the count of `telldir` is that of `seekdir`. -/
def Dir.SeekOk (h : Host) : Dir → Prop
  | .nt d s => s.SeekOk h d
  | .zip _ _ => True
  | .virt _ _ => True

section Seeking

variable {h : Host}

theorem nth_nt (d : NtDir) (s : NtPos) (n : Nat) :
    nth (Dir.readdir h) (.nt d s) n =
      nth (fun s => ((d.readdirNt h s).ent, (d.readdirNt h s).pos)) s n := by
  induction n generalizing s with
  | zero => rfl
  | succ n ih => exact ih _

theorem seeksBack_iff_sought {d : Dir} (hd : d.At h) : d.SeeksBack h ↔
    ∀ n, nth (Dir.readdir h) (d.listing.sought h d.telldir) n = nth (Dir.readdir h) d n := by
  have hsame : ∀ ops, (run h d ops).seekdir h d.telldir = d.listing.sought h d.telldir := by
    intro ops
    obtain ⟨hat, hlisting⟩ := run_at hd ops
    rw [seekdir_sought hat, hlisting]
  constructor
  · intro hall n
    rw [← hsame []]
    exact hall [] n
  · intro hall ops n
    rw [hsame]
    exact hall n

theorem dir_seeksBack_iff {d : Dir} (hd : d.At h) : d.SeeksBack h ↔ d.SeekOk h := by
  rw [seeksBack_iff_sought hd]
  cases d with
  | nt d s =>
    have hiff := nt_reads.nth_eq_iff (at_sought (h := h) (d := d) s.tell) hd
    refine Iff.trans ?_ (hiff.trans ⟨seekOk_of_left_eq hd, left_eq_of_seekOk hd⟩)
    exact forall_congr' fun n => by rw [← nth_nt, ← nth_nt]; rfl
  | zip z s =>
    obtain ⟨k, rfl⟩ := hd
    refine iff_of_true (fun n => ?_) trivial
    have hseek := @Cursor.Counts.seekLoop_iterate _ _ _ _ _ z.readdirZipos_counts k (z.records + 3)
      z.start (by omega)
    exact congrArg (fun s => nth (Dir.readdir h) (.zip z s) n) hseek
  | virt ents s =>
    obtain ⟨htell, hidx⟩ := hd
    refine iff_of_true (fun n => ?_) trivial
    have hseek : seekdirVirt ents s.tell = s := by
      obtain ⟨tell, idx⟩ := s
      dsimp only at htell hidx ⊢
      rw [seekdirVirt, if_neg (by omega), if_neg (by omega), Int.toNat_natCast, htell]
    exact congrArg (fun s => nth (Dir.readdir h) (.virt ents s) n) hseek

end Seeking

/-- **Directory streams.** In every run on every listing, `readdir_r` copies and `seekdir`
gets back exactly under the conditions given. -/
theorem directory_stream_iff (h : Host) (l : Listing) (ops : List Op) :
    ((run h (l.opened h) ops).Copies h ↔ (run h (l.opened h) ops).CopyOk) ∧
      ((run h (l.opened h) ops).SeeksBack h ↔ (run h (l.opened h) ops).SeekOk h) :=
  have hat := (run_at (at_opened l) ops).1
  ⟨dir_copies_iff hat, dir_seeksBack_iff hat⟩

/-- A host that opens everything. -/
def openHost : Host := ⟨fun _ _ => .ok (.ok ⟨0, 5⟩), [], 0x43, fun s => s.map fun c => c.toUInt8⟩

/-- `\\?\C:\d`, with a system file before `a` and `b`. -/
def hiddenFirst : NtDir :=
  ⟨1024, [bslash, bslash, quest, bslash, 0x43, colon, bslash, 0x64],
    ⟨kNtFileAttributeSystem, 0, [0x73]⟩, [⟨0, 0, [0x61]⟩, ⟨0, 0, [0x62]⟩], by decide, by decide⟩

/-- At its start `readdir_r` copies nothing of the entry; and after `a` has been read,
`seekdir` to where that left the stream returns it once more. -/
theorem hidden_file_not_counted :
    ¬ (run openHost (Listing.opened openHost (.nt hiddenFirst)) []).Copies openHost ∧
      ¬ (run openHost (Listing.opened openHost (.nt hiddenFirst)) [.readdir]).SeeksBack openHost := by
  constructor
  · intro hall
    exact absurd (hall ⟨0, 0, 0, 0, []⟩) (by decide)
  · intro hall
    exact absurd (hall [] 0) (by decide)

end ApeShim.Dirstream
