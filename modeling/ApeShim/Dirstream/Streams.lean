import ApeShim.Lib.Cursor
import ApeShim.Nt.Chars

/-!
Directory streams (`shim/dirstream.c`): the enumeration of an NT directory with the drive
letters of the root behind it, a directory of the zip store, and a listing of the emulated
`/proc` tree, each read with a cursor of its own.
-/

namespace ApeShim.Dirstream
open Nt

/-! ## Entries -/

abbrev CStr := List UInt8

def DT_FIFO : Nat := 1
def DT_CHR : Nat := 2
def DT_DIR : Nat := 4
def DT_BLK : Nat := 6
def DT_REG : Nat := 8
def DT_LNK : Nat := 10

structure Dirent where
  ino : Nat
  off : Nat
  reclen : Nat
  type : Nat
  name : CStr
  deriving DecidableEq, Repr

/-- `sizeof(struct dirent)` and `sizeof(ent->d_name)`. -/
def sizeofDirent : Nat := 280
def sizeofName : Nat := 256

/-! ## NT -/

def kNtFileAttributeSystem : UInt32 := 0x4
def kNtFileAttributeDirectory : UInt32 := 0x10
def kNtFileAttributeReparsePoint : UInt32 := 0x400

/-- `NtWin32FindData`. -/
structure FindData where
  dwFileAttributes : UInt32
  dwFileType : UInt32
  cFileName : Str
  deriving DecidableEq, Repr

def FindData.system (w : FindData) : Bool := w.dwFileAttributes &&& kNtFileAttributeSystem ≠ 0

def getNtDirentType (w : FindData) : Nat :=
  if w.dwFileType = 1 then DT_BLK
  else if w.dwFileType = 2 then DT_CHR
  else if w.dwFileType = 3 then DT_FIFO
  else if w.dwFileAttributes &&& kNtFileAttributeReparsePoint ≠ 0 then DT_LNK
  else if w.dwFileAttributes &&& kNtFileAttributeDirectory ≠ 0 then DT_DIR
  else DT_REG

abbrev Errno := Int

/-- `nFileIndexHigh` and `nFileIndexLow`. -/
structure FileIndex where
  high : UInt32
  low : UInt32

def FileIndex.ino (i : FileIndex) : Nat := i.high.toNat <<< 32 ||| i.low.toNat

/-- What the streams ask of the system, and of cosmo: opening a path for its attributes,
through a reparse point or not, and `GetFileInformationByHandle` on what was opened, each
with the error it leaves when it fails; the bits of `GetLogicalDrives`, lowest first;
`__ape_shim_cosmos_drive`; and `tprecode16to8` into `d_name`. -/
structure Host where
  createFile : (openReparsePoint : Bool) → Str → Except Errno (Except Errno FileIndex)
  logicalDrives : List Nat
  cosmosDrive : UInt16
  recode : Str → CStr

/-- An NT directory: its name as `GetFinalPathNameByHandle` has it, and what
`FindFirstFile` and `FindNextFile` enumerate. -/
structure NtDir where
  PATH_MAX : Nat
  final : Str
  first : FindData
  rest : List FindData
  named : final ≠ []
  fits : final.length + 2 + 1 ≤ PATH_MAX

namespace NtDir

def files (d : NtDir) : List FindData := d.first :: d.rest

def isroot (h : Host) (d : NtDir) : Bool :=
  d.final.length = 7 && d.final.take 4 = [bslash, bslash, quest, bslash] &&
    d.final.getD 5 0 = colon && d.final.getD 6 0 = bslash &&
    lower ((d.final.getD 4 0) &&& 255).toNat = lower (h.cosmosDrive &&& 255).toNat

/-- `name16` without the star. -/
def folder (d : NtDir) : Str :=
  if d.final.length > 1 ∧ d.final.getLast? ≠ some bslash then d.final ++ [bslash] else d.final

/-- Whether `\\?\C:\` is what stands there. -/
def isVolume (s : Str) : Bool :=
  s.length = 7 && s.take 4 = [bslash, bslash, quest, bslash] && s.getD 5 0 = colon &&
    s.getD 6 0 = bslash

/-- The path of an entry, if there is room for it. -/
def join (d : NtDir) (name : Str) : Option Str :=
  if name = [dot] then some d.folder
  else if name = dotdot then
    if isVolume d.folder then some d.folder
    else some (d.folder.dropLast.reverse.dropWhile (· ≠ bslash)).reverse
  else if name = [] ∨ d.folder.length + name.length < d.PATH_MAX then some (d.folder ++ name)
  else none

end NtDir

/-- The inode of an entry, whether `readdir` shows it, and the error that asking left. -/
structure Looked where
  ino : Nat
  shown : Bool
  err : Option Errno

def NtDir.look (h : Host) (d : NtDir) (w : FindData) : Looked :=
  match d.join w.cFileName with
  | none => ⟨0, false, none⟩
  | some jp =>
      match h.createFile true jp with
      | .error e => ⟨0, false, some e⟩
      | .ok (.error e) => ⟨0, true, some e⟩
      | .ok (.ok i) => ⟨i.ino, true, none⟩

/-- A cursor over an NT directory. `pending` is `windata` and all `FindNextFile` will
still give, and empty once `isdone`; `drives` are those not yet synthesized. -/
structure NtPos where
  tell : Nat
  pending : List FindData
  drives : List Nat
  deriving DecidableEq

/-- What a read made of the stream: the entry, the last error left on the way, and the
cursor. -/
structure Got (σ : Type) where
  ent : Option Dirent
  err : Option Errno
  pos : σ

def drivePath (index : Nat) : Str := [UInt16.ofNat (0x41 + index), colon, bslash]

/-- `while (dir->drives)`. -/
def readDrives (h : Host) (tell : Nat) : List Nat → Option Errno → Got NtPos
  | [], err => ⟨none, err, ⟨tell, [], []⟩⟩
  | index :: drives, err =>
      match h.createFile false (drivePath index) with
      | .error e => readDrives h tell drives (some e)
      | .ok (.error e) => readDrives h tell drives (some e)
      | .ok (.ok i) =>
          ⟨some ⟨i.ino, tell, 0, DT_DIR, [UInt8.ofNat (0x41 + index)]⟩, err,
            ⟨tell + 1, [], drives⟩⟩

/-- `readdir_nt`, along what is pending. -/
def NtDir.readFiles (h : Host) (d : NtDir) (drives : List Nat) :
    Nat → List FindData → Option Errno → Got NtPos
  | tell, [], err => readDrives h tell drives err
  | tell, w :: ws, err =>
      if w.system then d.readFiles h drives tell ws err
      else
        let l := d.look h w
        let err := l.err.or err
        if l.shown then
          ⟨some ⟨l.ino, tell, 0, getNtDirentType w, h.recode w.cFileName⟩, err,
            ⟨tell + 1, ws, drives⟩⟩
        else d.readFiles h drives (tell + 1) ws err

def NtDir.readdirNt (h : Host) (d : NtDir) (s : NtPos) : Got NtPos :=
  d.readFiles h s.drives s.tell s.pending none

def NtDir.rewinddir (h : Host) (d : NtDir) (s : NtPos) : NtPos :=
  { tell := 0, pending := d.files, drives := if d.isroot h then h.logicalDrives else s.drives }

/-- `for (; dir->tell < tell; ++dir->tell)`, with `FindNextFile`; the first file is there
already. -/
def nextLoop : Nat → Nat → FindData → List FindData → Nat × List FindData
  | 0, tell, w, ws => (tell, w :: ws)
  | _ + 1, tell, _, [] => (tell, [])
  | n + 1, tell, _, w :: ws => nextLoop n (tell + 1) w ws

def NtDir.seekdir (h : Host) (d : NtDir) (t : Int) (s : NtPos) : NtPos :=
  let (tell, pending) := nextLoop t.toNat 0 d.first d.rest
  { tell, pending, drives := if d.isroot h then h.logicalDrives else s.drives }

/-! ## The zip store -/

def slash8 : UInt8 := 0x2F

/-- A header of the central directory. -/
structure Cfile where
  name : CStr
  isDir : Bool
  hdrsize : Nat
  deriving DecidableEq, Repr

/-- A directory of the zip store: the headers by their offsets, where the central
directory starts and how many it has, the directory's name and inode, and the inodes that
`__zipos_inode` gives to other names. -/
structure ZipDir where
  cfileAt : Nat → Cfile
  cdirOffset : Nat
  records : Nat
  name : CStr
  inode : Nat
  inodeOf : CStr → Nat

/-- A cursor over it. `reclen` is what `dir->ent` has in `d_reclen`. -/
structure ZipPos where
  tell : Nat
  offset : Nat
  found : List CStr
  reclen : Nat
  deriving DecidableEq

namespace ZipDir

/-- `zip.prefix`. -/
def pathPrefix (z : ZipDir) : CStr :=
  if z.name ≠ [] ∧ z.name.getLast? ≠ some slash8 then z.name ++ [slash8] else z.name

/-- The directory above, without a slash behind it. -/
def parent (z : ZipDir) : CStr :=
  ((z.pathPrefix.reverse.dropWhile (· = slash8)).dropWhile (· ≠ slash8)
    |>.dropWhile (· = slash8)).reverse

/-- The name a header has in this directory, and its type: what stands behind the prefix,
up to the next slash. Nothing for a header that is not below it. -/
def nameOf (z : ZipDir) (c : Cfile) : CStr :=
  if c.name.length > z.pathPrefix.length ∧ c.name.take z.pathPrefix.length = z.pathPrefix then
    ((c.name.drop z.pathPrefix.length).takeWhile (· ≠ slash8)).take (sizeofName - 1)
  else []

def typeOf (z : ZipDir) (c : Cfile) : Nat :=
  if slash8 ∈ c.name.drop z.pathPrefix.length ∨ c.isDir then DT_DIR else DT_REG

/-- One pass of the loop of `readdir_zipos`. -/
def pass (z : ZipDir) (s : ZipPos) : Option Dirent × ZipPos :=
  if s.tell = 0 then
    (some ⟨z.inode, s.tell, s.reclen, DT_DIR, [0x2E]⟩, { s with tell := s.tell + 1 })
  else if s.tell = 1 then
    (some ⟨z.inodeOf z.parent, s.tell, s.reclen, DT_DIR, [0x2E, 0x2E]⟩,
      { s with tell := s.tell + 1 })
  else
    let c := z.cfileAt s.offset
    let name := z.nameOf c
    let s' := { s with tell := s.tell + 1, offset := s.offset + c.hdrsize }
    -- critbit0_emplace
    if name ≠ [] ∧ name ∉ s.found then
      (some ⟨s.offset, s.tell, s.reclen, z.typeOf c, name⟩, { s' with found := name :: s.found })
    else (none, s')

def readLoop (z : ZipDir) : Nat → ZipPos → Option Dirent × ZipPos
  | 0, s => (none, s)
  | n + 1, s =>
      match z.pass s with
      | (some e, s) => (some e, s)
      | (none, s) => readLoop z n s

/-- `readdir_zipos`: as long as `dir->tell < dir->zip.records + 2`. -/
def readdirZipos (z : ZipDir) (s : ZipPos) : Option Dirent × ZipPos :=
  z.readLoop (z.records + 2 - s.tell) s

def rewinddir (z : ZipDir) (s : ZipPos) : ZipPos :=
  { s with tell := 0, offset := z.cdirOffset, found := [] }

def seekdir (z : ZipDir) (t : Int) (s : ZipPos) : ZipPos :=
  Cursor.seekLoop z.readdirZipos ZipPos.tell t (z.records + 3) (z.rewinddir s)

end ZipDir

/-! ## Listings in memory -/

/-- `pfs_virtent`. -/
structure Virtent where
  name : CStr
  type : Nat
  deriving DecidableEq, Repr

structure VirtPos where
  tell : Nat
  idx : Nat
  deriving DecidableEq

def readdirVirt (ents : List Virtent) (s : VirtPos) : Option Dirent × VirtPos :=
  match ents[s.idx]? with
  | none => (none, s)
  | some e =>
      (some ⟨s.idx + 1, s.idx + 1, sizeofDirent, e.type, e.name⟩, ⟨s.idx + 1, s.idx + 1⟩)

def seekdirVirt (ents : List Virtent) (t : Int) : VirtPos :=
  let idx := if t < 0 then 0 else if t > ents.length then ents.length else t.toNat
  ⟨idx, idx⟩

/-! ## Streams -/

inductive Dir
  | nt (d : NtDir) (s : NtPos)
  | zip (z : ZipDir) (s : ZipPos)
  | virt (ents : List Virtent) (s : VirtPos)

/-- What a stream is opened on. -/
inductive Listing
  | nt (d : NtDir)
  | zip (z : ZipDir)
  | virt (ents : List Virtent)

/-- `fdopendir` and `opendir`: the object comes from `calloc`. -/
def Listing.opened (h : Host) : Listing → Dir
  | nt d => .nt d ⟨0, d.files, if d.isroot h then h.logicalDrives else []⟩
  | zip z => .zip z ⟨0, z.cdirOffset, [], 0⟩
  | virt ents => .virt ents ⟨0, 0⟩

namespace Dir

def readdirImpl (h : Host) : Dir → Got Dir
  | nt d s => let g := d.readdirNt h s; ⟨g.ent, g.err, nt d g.pos⟩
  | zip z s => let r := z.readdirZipos s; ⟨r.1, none, zip z r.2⟩
  | virt ents s => let r := readdirVirt ents s; ⟨r.1, none, virt ents r.2⟩

def readdir (h : Host) (d : Dir) : Option Dirent × Dir :=
  let g := d.readdirImpl h
  (g.ent, g.pos)

/-- What `readdir_r` leaves: an error, or in `*result` the output with what it holds, or
null. -/
inductive Result
  | error (e : Errno)
  | entry (output : Dirent)
  | null
  deriving DecidableEq

/-- `readdir_r`. The records here have no size or are the whole struct: the copy is of
nothing or of everything. -/
def readdirR (h : Host) (output : Dirent) (d : Dir) : Result × Dir :=
  let g := d.readdirImpl h
  match g.err, g.ent with
  | some e, _ => (.error e, g.pos)
  | none, some e => (.entry (if e.reclen ≠ 0 then e else output), g.pos)
  | none, none => (.null, g.pos)

def telldir : Dir → Nat
  | nt _ s => s.tell
  | zip _ s => s.tell
  | virt _ s => s.tell

def rewinddir (h : Host) : Dir → Dir
  | nt d s => nt d (d.rewinddir h s)
  | zip z s => zip z (z.rewinddir s)
  | virt ents _ => virt ents ⟨0, 0⟩

def seekdir (h : Host) (t : Int) : Dir → Dir
  | nt d s => nt d (d.seekdir h t s)
  | zip z s => zip z (z.seekdir t s)
  | virt ents _ => virt ents (seekdirVirt ents t)

end Dir

inductive Op
  | readdir
  | readdirR (output : Dirent)
  | telldir
  | seekdir (t : Int)
  | rewinddir

def step (h : Host) (d : Dir) : Op → Dir
  | .readdir => (d.readdir h).2
  | .readdirR output => (d.readdirR h output).2
  | .telldir => d
  | .seekdir t => d.seekdir h t
  | .rewinddir => d.rewinddir h

def run (h : Host) (d : Dir) (ops : List Op) : Dir := ops.foldl (step h) d

end ApeShim.Dirstream
