import ApeShim.Lib.Locks

/-!
The locks of the shim on NT: those of `epoll.c`, `inotify.c`, `procfs/core/`, `open-nt.c`,
`dirstream.c` and `socket.c`, with the descriptor table's, which is cosmo's. Every entry is written as
what it does with them, in the order of its source; conditions are left open. A signal is handled
inside a system call of the thread it is for, and the handler may write and send.
-/

namespace ApeShim.Locking
open Locks Locks.Prog

/-- The locks, from the outermost to the innermost. -/
inductive Lock
  /-- `g_insts_lock` -/
  | insts
  /-- `in->lock` -/
  | inst (i : Nat)
  | pc
  /-- `dir->lock` -/
  | dir (d : Nat)
  /-- `m->lock` -/
  | memfd (m : Nat)
  /-- `g_snap_lock` -/
  | snap
  /-- `g_net_lock` -/
  | net
  /-- `__fds_lock` -/
  | fds
  /-- `g_defer_lock` -/
  | defer
  /-- `g_pairs_lock` -/
  | pairs
  /-- `g_sets_lock` -/
  | sets
  /-- `s->lock` -/
  | set (e : Nat)
  deriving DecidableEq, Repr

def rank : Lock → Nat
  | .insts => 0
  | .inst _ => 1
  | .pc => 2
  | .dir _ | .memfd _ | .snap | .net => 3
  | .fds => 4
  | .defer | .pairs => 5
  | .sets => 6
  | .set _ => 7

/-- The lowest that a handler takes. -/
def low : Nat := 5

abbrev Code := Prog Lock

/-! ## epoll.c, and the hooks of io.c, read.c and socket.c -/

/-- `SHIM_EPOLL_MAX_SETS` -/
def maxSets : Nat := 32

/-- `rearm`: the wakers are written when nothing is held any more. -/
def rearm : Code :=
  block [within .sets (block ((List.range maxSets).map fun e => maybe (touch (.set e)))), many call]

/-- `__ape_shim_epoll_note_new_fd`, `note_pipe`, `note_pair`. -/
def notePairs : Code := maybe (touch .pairs)

/-- `__ape_shim_epoll_hint_pipe_write`. -/
def hintPipeWrite : Code := maybe (block [touch .pairs, maybe rearm])

/-- `__ape_shim_epoll_note_dup`. -/
def noteDup : Code := maybe (touch .sets)

/-- `set_by_handle`. -/
def setByHandle : Code := touch .sets

/-- `__ape_shim_nt_sockopt_replay`; `setsockopt` of a pending option runs no handler. -/
def sockoptReplay : Code := maybe (touch .defer)

/-- `__ape_shim_nt_wants_eagain`. -/
def wantsEagain : Code := maybe call

/-- `__ape_shim_write`, `writev`, with `write_result`. -/
def shimWrite : Code :=
  block [sockoptReplay, wantsEagain, maybe call, maybe hintPipeWrite, maybe rearm]

/-- `__ape_shim_send`, `sendto`, `sendmsg`, with `send_result`. -/
def shimSend : Code := block [sockoptReplay, wantsEagain, many call, maybe rearm]

/-- What a signal handler does. -/
def handler : Code := many (either shimWrite shimSend)

/-- `read` of a descriptor that the host has, with its hook. -/
def hostRead : Code := block [call, maybe rearm]

/-- `pipe`: two slots of the table. -/
def hostPipe : Code := block [touch .fds, call]

/-- `emu_create1`: `fcntl(F_GETFD)` is asked under the lock and looks at the table only; what is to
be closed is closed after it. -/
def emuCreate1 : Code :=
  block [hostPipe, maybe (block [many call, touch .sets, many call])]

/-- `emu_ctl` on the set `e`. -/
def emuCtl (e : Nat) : Code := block [setByHandle, maybe (block [touch (.set e), maybe call])]

/-- One round of `emu_wait`. -/
def emuWaitRound (e : Nat) : Code :=
  block [touch (.set e), call, many (block [call, maybe (touch (.set e))]), many hostRead,
    maybe (touch (.set e))]

def emuWait (e : Nat) : Code := block [setByHandle, many (emuWaitRound e)]

/-! ## procfs and open-nt.c -/

/-- `__fds_lock` around a reservation, `__reservefd`. -/
def reserveFd : Code := touch .fds

/-- `sys_open_nt`, given the conversion of the path. The `/dev/` names are opened under the lock, with
signals blocked; any other file is opened before the lock is taken. -/
def openWith (mkntpathat : Code) : Code :=
  either (touch .fds) (block [mkntpathat, call, maybe (touch .fds)])

/-- `sys_close_nt` of a file. -/
def closeFile : Code := call

/-- What the generator does on disk, with `pc_busy` set: its paths are real already. -/
def fileWork : Code :=
  many (oneOf [openWith skip, closeFile, hostRead, touch (.dir 0), call])

/-- `pfs_procs`, `pfs_threads_of`. -/
def snapshot : Code := touch .snap

/-- `pfs_gen_net_file`, `pfs_net_fds_of`. -/
def netTable : Code := touch .net

/-- `pfs_pid_link`, `pfs_proc_find` and their like, which need no `pc_lock`. -/
def processFacts : Code := many (either snapshot netTable)

/-- Generating under `pc_lock`: an ensure, or the text of a file. -/
def generate : Code := many (oneOf [snapshot, netTable, fileWork])

/-- `__ape_shim_procfs_rewrite` -/
def rewrite : Code := maybe (within .pc generate)

/-- `__ape_shim_procfs_relative` -/
def relative : Code := maybe (within .pc generate)

/-- `__mkntpathat` outside the generator. -/
def mkntpathat : Code := either rewrite relative

def sysOpenNt : Code := openWith mkntpathat

/-- `stat`, `lstat`, `mkdir`, `unlink` and the like. -/
def pathCall : Code := block [mkntpathat, call]

/-- `memfd_open`, which is called under `pc_lock`. -/
def memfdOpen : Code := maybe reserveFd

/-- `__ape_shim_procfs_memfd_dir` -/
def memfdDir : Code := within .pc memfdOpen

/-- `gen_vpath` -/
def genVpath : Code := within .pc generate

/-- `__ape_shim_procfs_memfd_lseek` of the descriptor `m`. -/
def memfdLseek (m : Nat) : Code :=
  either (touch (.memfd m))
    (block [touch .pc,
      either (touch (.memfd m))
        (block [genVpath, either (block [touch .pc, touch (.memfd m)]) (touch (.memfd m))])])

/-- `__ape_shim_procfs_memfd_read`, or the host's `read`. -/
def shimRead (m : Nat) : Code := either (touch (.memfd m)) hostRead

/-- `__ape_shim_procfs_memfd_fstat`, or the host's `fstat`. -/
def shimFstat (m : Nat) : Code := either (touch (.memfd m)) call

/-- `__ape_shim_procfs_track`, `join`, `fd_vpath`, `fix_dirent`: a look at the table under
`pc_lock`. -/
def trackTable : Code := maybe (touch .pc)

/-- `__ape_shim_procfs_list`, through `list_pid`. -/
def procfsList : Code := maybe (within .pc generate)

/-- `__ape_shim_procfs_virtual_dir`; no path is converted in it. -/
def virtualDir : Code := maybe (within .pc processFacts)

/-- `__ape_shim_procfs_open`; a link is followed with `open`. -/
def procfsOpen : Code :=
  block [processFacts,
    maybe (oneOf [memfdDir, sysOpenNt, block [genVpath, maybe (within .pc memfdOpen)]])]

/-- `__ape_shim_open`, `openat`. -/
def shimOpen : Code :=
  block [trackTable, procfsOpen, maybe (block [sysOpenNt, trackTable]), notePairs]

/-- `sys_close_nt` of any descriptor: `__ape_shim_procfs_memfd_close`,
`__ape_shim_nt_sockopt_forget`. -/
def sysCloseNt : Code := block [oneOf [skip, touch .pc, maybe (touch .defer)], maybe call]

/-! ## dirstream.c -/

/-- `opendir`, `fdopendir` of the vendored streams. -/
def opendir : Code :=
  block [virtualDir, either memfdDir (maybe (block [sysOpenNt, trackTable, virtualDir]))]

/-- `readdir`, `rewinddir`, `seekdir`, `telldir`. -/
def readdir (d : Nat) : Code := touch (.dir d)

def closedir : Code := block [maybe sysCloseNt]

/-! ## inotify.c -/

/-- `emit`: cosmo's own `write`. -/
def emit : Code := maybe call

/-- `scan_dir`, with the stream `d`. -/
def scanDir (d : Nat) : Code :=
  block [opendir, many (block [readdir d, maybe pathCall]), maybe closedir, many emit]

/-- `scan_file` -/
def scanFile : Code := block [pathCall, many emit]

/-- `scan_thread` of the instance `i`. -/
def scanThread (i d : Nat) : Code :=
  block [many (block [call, within (.inst i) (block [emit, many (either (scanDir d) scanFile)])]),
    within .insts (within (.inst i) sysCloseNt)]

def emuInit1 : Code := within .insts (maybe (block [hostPipe, many call]))

/-- The instance of a descriptor is found under `g_insts_lock`, which is given back once the
instance's own lock is held; then `body`. -/
def onInstance (i : Nat) (body : Code) : Code :=
  block [lock .insts,
    either (unlock .insts)
      (block [lock (.inst i), unlock .insts, body, unlock (.inst i)])]

/-- `emu_add_watch`; the last section is for a thread that could not be started. -/
def emuAddWatch (i d : Nat) : Code :=
  block [pathCall, maybe (block [onInstance i (maybe (scanDir d)), maybe (touch (.inst i))])]

/-- `emu_rm_watch` -/
def emuRmWatch (i : Nat) : Code := onInstance i (maybe emit)

/-! ## The entries -/

/-- What a program calls. -/
inductive Call
  | «open» | close | opendir | closedir | fdopendir | statAt | pipe | dup | write | send
  | read (m : Nat) | lseek (m : Nat) | fstat (m : Nat)
  | readdir (d : Nat)
  | epollCreate1 | epollCtl (e : Nat) | epollWait (e : Nat)
  | inotifyInit1 | inotifyAddWatch (i d : Nat) | inotifyRmWatch (i : Nat)
  /-- the thread that an instance's first watch starts -/
  | inotifyScan (i d : Nat)

def Call.code : Call → Code
  | .open => shimOpen
  | .close => sysCloseNt
  | .opendir => block [Locking.opendir, trackTable]
  | .closedir => Locking.closedir
  | .fdopendir => block [trackTable, procfsList, trackTable, virtualDir]
  | .statAt => block [trackTable, processFacts, pathCall]
  | .pipe => block [hostPipe, notePairs]
  | .dup => block [call, noteDup, notePairs]
  | .write => shimWrite
  | .send => shimSend
  | .read m => shimRead m
  | .lseek m => memfdLseek m
  | .fstat m => shimFstat m
  | .readdir d => block [Locking.readdir d, trackTable]
  | .epollCreate1 => emuCreate1
  | .epollCtl e => emuCtl e
  | .epollWait e => emuWait e
  | .inotifyInit1 => emuInit1
  | .inotifyAddWatch i d => emuAddWatch i d
  | .inotifyRmWatch i => emuRmWatch i
  | .inotifyScan i d => scanThread i d

/-! ## Every entry keeps the order -/

variable {r : Nat} {p : Code}

theorem rank_lt (l : Lock) : rank l < 8 := by
  cases l <;> simp [rank]

theorem level_lock (l : Lock) (hr : r ≤ rank l) : Level rank low r (touch l) := level_touch hr

theorem level_under (l : Lock) (hp : Level rank low (rank l + 1) p) (hr : r ≤ rank l) :
    Level rank low r (within l p) := hp.within hr

theorem level_rearm : Level rank low 5 rearm := by
  have hsets : Level rank low 7
      (block ((List.range maxSets).map fun e => maybe (touch (.set e)))) := by
    refine level_block (List.forall_iff_forall_mem.mpr fun p hp => ?_)
    obtain ⟨e, -, rfl⟩ := List.mem_map.mp hp
    exact (level_lock (.set e) (le_refl 7)).maybe
  have hcall : Level rank low 5 call := level_call (by decide)
  exact level_block ⟨level_under .sets hsets (by decide), hcall.many⟩

theorem level_shimWrite : Level rank low 5 shimWrite := by
  have hcall : Level rank low 5 call := level_call (by decide)
  have hdefer : Level rank low 5 sockoptReplay := (level_lock .defer (by decide)).maybe
  have hhint : Level rank low 5 hintPipeWrite :=
    Level.maybe (level_block ⟨level_lock .pairs (by decide), level_rearm.maybe⟩)
  exact level_block ⟨hdefer, hcall.maybe, hcall.maybe, hhint.maybe, level_rearm.maybe⟩

theorem level_shimSend : Level rank low 5 shimSend := by
  have hcall : Level rank low 5 call := level_call (by decide)
  have hdefer : Level rank low 5 sockoptReplay := (level_lock .defer (by decide)).maybe
  exact level_block ⟨hdefer, hcall.maybe, hcall.many, level_rearm.maybe⟩

/-- A handler takes only locks that no system call is made under. -/
theorem level_handler : Level rank low low handler :=
  (level_shimWrite.either level_shimSend).many

theorem level_hostRead (hr : r ≤ 5) : Level rank low r hostRead := by
  have hcall : Level rank low 5 call := level_call (by decide)
  exact Level.mono (level_block ⟨hcall, level_rearm.maybe⟩) hr

theorem level_hostPipe (hr : r ≤ 4) : Level rank low r hostPipe :=
  level_block ⟨level_lock .fds hr, level_call (hr.trans (by decide))⟩

theorem level_emuCreate1 : Level rank low 0 emuCreate1 := by
  have hcall : Level rank low 0 call := level_call (by decide)
  exact level_block ⟨level_hostPipe (by decide),
    Level.maybe (level_block ⟨hcall.many, level_lock .sets (by decide), hcall.many⟩)⟩

theorem level_emuCtl (e : Nat) : Level rank low 0 (emuCtl e) := by
  have hcall : Level rank low 0 call := level_call (by decide)
  exact level_block ⟨level_lock .sets (by decide),
    Level.maybe (level_block ⟨level_lock (.set e) (Nat.zero_le _), hcall.maybe⟩)⟩

theorem level_emuWait (e : Nat) : Level rank low 0 (emuWait e) := by
  have hset : Level rank low 0 (touch (.set e)) := level_lock _ (Nat.zero_le _)
  have hcall : Level rank low 0 call := level_call (by decide)
  have hprobes : Level rank low 0 (many (block [call, maybe (touch (.set e))])) :=
    Level.many (level_block ⟨hcall, hset.maybe⟩)
  have hround : Level rank low 0 (emuWaitRound e) := level_block
    ⟨hset, hcall, hprobes, (level_hostRead (by decide)).many, hset.maybe⟩
  exact level_block ⟨level_lock .sets (by decide), hround.many⟩

/-- The table is locked last: the conversion of the path comes before it. -/
theorem level_openWith (hp : Level rank low r p) (hr : r ≤ 4) : Level rank low r (openWith p) := by
  have hfds : Level rank low r (touch .fds) := level_lock _ hr
  exact Level.either hfds
    (level_block ⟨hp, level_call (hr.trans (by decide)), hfds.maybe⟩)

theorem level_processFacts (hr : r ≤ 3) : Level rank low r processFacts :=
  ((level_lock .snap hr).either (level_lock .net hr)).many

theorem level_generate : Level rank low 3 generate := by
  have hcall : Level rank low 3 call := level_call (by decide)
  have hfiles : Level rank low 3 fileWork := Level.many (level_oneOf
    ⟨level_openWith level_skip (by decide), hcall, level_hostRead (by decide),
      level_lock _ (by decide), hcall⟩)
  exact Level.many (level_oneOf ⟨level_lock .snap (by decide), level_lock .net (by decide), hfiles⟩)

theorem level_ensure : Level rank low 2 (maybe (within .pc generate)) :=
  (level_under .pc level_generate (by decide)).maybe

theorem level_mkntpathat : Level rank low 2 mkntpathat := level_ensure.either level_ensure

theorem level_sysOpenNt : Level rank low 2 sysOpenNt := level_openWith level_mkntpathat (by decide)

theorem level_pathCall : Level rank low 2 pathCall :=
  level_block ⟨level_mkntpathat, level_call (by decide)⟩

theorem level_trackTable : Level rank low 2 trackTable := (level_lock .pc (by decide)).maybe

theorem level_memfdDir : Level rank low 2 memfdDir :=
  level_under .pc (level_lock .fds (by decide)).maybe (by decide)

theorem level_genVpath : Level rank low 2 genVpath := level_under .pc level_generate (by decide)

theorem level_virtualDir : Level rank low 2 virtualDir :=
  (level_under .pc (level_processFacts (by decide)) (by decide)).maybe

theorem level_memfd (m : Nat) (hr : r ≤ 3) : Level rank low r (touch (.memfd m)) := level_lock _ hr

theorem level_memfdLseek (m : Nat) : Level rank low 2 (memfdLseek m) := by
  have hm : Level rank low 2 (touch (.memfd m)) := level_memfd m (by decide)
  have hpc : Level rank low 2 (touch .pc) := level_lock _ (by decide)
  have hswap : Level rank low 2 (block [touch .pc, touch (.memfd m)]) := level_block ⟨hpc, hm⟩
  have hstale : Level rank low 2
      (block [genVpath, either (block [touch .pc, touch (.memfd m)]) (touch (.memfd m))]) :=
    level_block ⟨level_genVpath, hswap.either hm⟩
  exact Level.either hm (level_block ⟨hpc, hm.either hstale⟩)

theorem level_procfsOpen : Level rank low 2 procfsOpen := by
  have hcontent : Level rank low 2 (block [genVpath, maybe (within .pc memfdOpen)]) :=
    level_block ⟨level_genVpath, level_memfdDir.maybe⟩
  exact level_block ⟨level_processFacts (by decide),
    Level.maybe (level_oneOf ⟨level_memfdDir, level_sysOpenNt, hcontent⟩)⟩

theorem level_notePairs (hr : r ≤ 5) : Level rank low r notePairs := (level_lock .pairs hr).maybe

theorem level_shimOpen : Level rank low 2 shimOpen :=
  level_block ⟨level_trackTable, level_procfsOpen,
    Level.maybe (level_block ⟨level_sysOpenNt, level_trackTable⟩), level_notePairs (by decide)⟩

theorem level_sysCloseNt : Level rank low 2 sysCloseNt := by
  have hcall : Level rank low 2 call := level_call (by decide)
  have hdefer : Level rank low 2 (touch .defer) := level_lock _ (by decide)
  exact level_block
    ⟨level_oneOf ⟨level_skip, level_lock .pc (by decide), hdefer.maybe⟩, hcall.maybe⟩

theorem level_opendir : Level rank low 2 opendir := by
  have hfiles : Level rank low 2 (block [sysOpenNt, trackTable, virtualDir]) :=
    level_block ⟨level_sysOpenNt, level_trackTable, level_virtualDir⟩
  exact level_block ⟨level_virtualDir, level_memfdDir.either hfiles.maybe⟩

theorem level_readdir (d : Nat) (hr : r ≤ 3) : Level rank low r (readdir d) := level_lock _ hr

theorem level_closedir : Level rank low 2 closedir := level_block level_sysCloseNt.maybe

theorem level_emit : Level rank low 2 emit := (level_call (by decide)).maybe

theorem level_scanDir (d : Nat) : Level rank low 2 (scanDir d) := by
  have hentry : Level rank low 2 (block [readdir d, maybe pathCall]) :=
    level_block ⟨level_readdir d (by decide), level_pathCall.maybe⟩
  exact level_block ⟨level_opendir, hentry.many, level_closedir.maybe, level_emit.many⟩

theorem level_scanFile : Level rank low 2 scanFile :=
  level_block ⟨level_pathCall, level_emit.many⟩

theorem level_scanThread (i d : Nat) : Level rank low 0 (scanThread i d) := by
  have hbody : Level rank low 2 (block [emit, many (either (scanDir d) scanFile)]) :=
    level_block ⟨level_emit, ((level_scanDir d).either level_scanFile).many⟩
  have hround : Level rank low 0
      (block [call, within (.inst i) (block [emit, many (either (scanDir d) scanFile)])]) :=
    level_block ⟨level_call (by decide), level_under (.inst i) hbody (Nat.zero_le _)⟩
  have hend : Level rank low 1 (within (.inst i) sysCloseNt) :=
    level_under (.inst i) level_sysCloseNt (le_refl 1)
  exact level_block ⟨hround.many, level_under .insts hend (by decide)⟩

theorem level_emuInit1 : Level rank low 0 emuInit1 := by
  have hcall : Level rank low 1 call := level_call (by decide)
  have hmake : Level rank low 1 (block [hostPipe, many call]) :=
    level_block ⟨level_hostPipe (by decide), hcall.many⟩
  exact level_under .insts hmake.maybe (by decide)

/-- From the table's lock to the instance's, hand over hand. -/
theorem level_onInstance (i : Nat) (hp : Level rank low 2 p) : Level rank low 0 (onInstance i p) := by
  intro held hheld
  have hnil : held = [] := List.eq_nil_iff_forall_not_mem.mpr fun x hx =>
    absurd (hheld x hx) (Nat.not_lt_zero _)
  subst hnil
  have hbody : check rank low p [.inst i] = some [.inst i] := hp _ fun x hx => by
    rw [List.mem_singleton.mp hx]
    exact Nat.lt_succ_self 1
  simp [onInstance, check, block, rank, hbody]

theorem level_emuAddWatch (i d : Nat) : Level rank low 0 (emuAddWatch i d) := by
  have hinst : Level rank low 0 (touch (.inst i)) := level_lock _ (Nat.zero_le _)
  have hrest : Level rank low 0
      (block [onInstance i (maybe (scanDir d)), maybe (touch (.inst i))]) :=
    level_block ⟨level_onInstance i (level_scanDir d).maybe, hinst.maybe⟩
  exact level_block ⟨level_pathCall.mono (by decide), hrest.maybe⟩

theorem level_emuRmWatch (i : Nat) : Level rank low 0 (emuRmWatch i) :=
  level_onInstance i level_emit.maybe

/-- One case for each entry. -/
theorem level_code (c : Call) : Level rank low 0 c.code := by
  have hcall : Level rank low 0 call := level_call (by decide)
  have htrack : Level rank low 0 trackTable := level_trackTable.mono (by decide)
  cases c with
  | «open» => exact level_shimOpen.mono (by decide)
  | close => exact level_sysCloseNt.mono (by decide)
  | opendir => exact level_block ⟨level_opendir.mono (by decide), htrack⟩
  | closedir => exact level_closedir.mono (by decide)
  | fdopendir =>
      exact level_block ⟨htrack, level_ensure.mono (by decide), htrack,
        level_virtualDir.mono (by decide)⟩
  | statAt =>
      exact level_block ⟨htrack, level_processFacts (by decide), level_pathCall.mono (by decide)⟩
  | pipe => exact level_block ⟨level_hostPipe (by decide), level_notePairs (by decide)⟩
  | dup =>
      have hnote : Level rank low 0 noteDup := (level_lock .sets (by decide)).maybe
      exact level_block ⟨hcall, hnote, level_notePairs (by decide)⟩
  | write => exact level_shimWrite.mono (by decide)
  | send => exact level_shimSend.mono (by decide)
  | read m => exact (level_memfd m (by decide)).either (level_hostRead (by decide))
  | lseek m => exact (level_memfdLseek m).mono (by decide)
  | fstat m => exact (level_memfd m (by decide)).either hcall
  | readdir d => exact level_block ⟨level_readdir d (by decide), htrack⟩
  | epollCreate1 => exact level_emuCreate1
  | epollCtl e => exact level_emuCtl e
  | epollWait e => exact level_emuWait e
  | inotifyInit1 => exact level_emuInit1
  | inotifyAddWatch i d => exact level_emuAddWatch i d
  | inotifyRmWatch i => exact level_emuRmWatch i
  | inotifyScan i d => exact level_scanThread i d

/-! ## No deadlock -/

variable {T : Type*} [Fintype T] [DecidableEq T]

end ApeShim.Locking
