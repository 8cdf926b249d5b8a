import ApeShim.Procfs.Tree
import Mathlib.Logic.Function.Basic

/-!
The text of a content file (`pc_gen_node` of `core/open.c`, `pc_pid_content` of
`core/materialize.c`), out of the slots that keep one generation of a process's files
for a throttle window.
-/

namespace ApeShim.Procfs

/-! ## The generators -/

/-- `pfs_xnu_gen_pid_file` -/
def Host.genPidFile (h : Host) (pid : UInt32) (name : Text) : Option Text :=
  if h.alive pid = false then none
  else if name = "cgroup".toList then some "0::/\n".toList
  else if name = "oom_score_adj".toList ∨ name = "oom_score".toList then some "0\n".toList
  else if name ∈ ["cmdline", "comm", "environ", "limits", "maps", "mountinfo", "mounts", "stat",
      "status", "statm", "io"].map String.toList then some (h.pidText pid name)
  else none

/-- `pfs_xnu_gen_top_file` -/
def Host.genTopFile (h : Host) (name : Text) : Option Text :=
  if name = "diskstats".toList then some []
  else if name ∈ ["meminfo", "uptime", "stat", "loadavg", "cpuinfo", "mounts", "cmdline", "version",
      "filesystems", "swaps"].map String.toList then some (h.topText name)
  else none

/-- `pfs_xnu_gen_net_file` -/
def Host.genNetFile (h : Host) (name : Text) : Option Text :=
  if name ∈ ["tcp", "tcp6", "udp", "udp6", "unix", "dev"].map String.toList then some (h.netText name)
  else none

/-- `pfs_gen_sys_file` -/
def Host.genSysFile (h : Host) (rest : Text) : Option Text :=
  if rest ∈ sysFiles then some (h.sysText rest) else none

section Generators

variable {h : Host} {x : Text}

theorem genTopFile_isSome_iff : (h.genTopFile x).isSome = true ↔ x ∈ topFiles := by
  have hto : ∀ y ∈ topFiles, y = "diskstats".toList ∨ y ∈ ["meminfo", "uptime", "stat", "loadavg",
      "cpuinfo", "mounts", "cmdline", "version", "filesystems", "swaps"].map String.toList := by decide
  have hfrom : ∀ y ∈ ["diskstats", "meminfo", "uptime", "stat", "loadavg", "cpuinfo", "mounts",
      "cmdline", "version", "filesystems", "swaps"].map String.toList, y ∈ topFiles := by decide
  rw [Host.genTopFile]
  split
  · rename_i hd
    exact iff_of_true rfl (hfrom x (List.mem_cons.mpr (Or.inl hd)))
  · rename_i hd
    split
    · rename_i hm
      exact iff_of_true rfl (hfrom x (List.mem_cons.mpr (Or.inr hm)))
    · rename_i hm
      exact iff_of_false Bool.false_ne_true fun hx => (hto x hx).elim hd hm

theorem genNetFile_isSome_iff : (h.genNetFile x).isSome = true ↔ x ∈ netFiles := by
  have hto : ∀ y ∈ netFiles, y ∈ ["tcp", "tcp6", "udp", "udp6", "unix", "dev"].map String.toList := by
    decide
  have hfrom : ∀ y ∈ ["tcp", "tcp6", "udp", "udp6", "unix", "dev"].map String.toList, y ∈ netFiles := by
    decide
  rw [Host.genNetFile]
  split
  · rename_i hm
    exact iff_of_true rfl (hfrom x hm)
  · rename_i hm
    exact iff_of_false Bool.false_ne_true fun hx => hm (hto x hx)

theorem genSysFile_isSome_iff : (h.genSysFile x).isSome = true ↔ x ∈ sysFiles := by
  rw [Host.genSysFile]
  split
  · rename_i hm
    exact iff_of_true rfl hm
  · rename_i hm
    exact iff_of_false Bool.false_ne_true hm

end Generators

/-! ## The slots -/

/-- `struct pidslot`, what the content comes from. An empty text is one not generated. -/
structure PidSlot where
  pid : UInt32 := 0
  ms : Int := 0
  start : UInt64 := 0
  vol : List Text := []
  fixed : Nat → Text := fun _ => []

/-- `NSLOTS` of them. -/
abbrev Slots := Fin 2048 → PidSlot

/-- The slot of the `i`-th probe. -/
def probe (pid : UInt32) (i : Nat) : Fin 2048 := Fin.ofNat 2048 (((pid * 2654435761) >>> 16).toNat + i)

/-- The first of the eight that was generated longest ago. -/
def oldest (slots : Slots) (pid : UInt32) : Fin 2048 :=
  ((List.range 8).tail.map (probe pid)).foldl
    (fun o s => if (slots s).ms < (slots o).ms then s else o) (probe pid 0)

/-- `slot_of`. -/
def slotOf (slots : Slots) (pid : UInt32) : Fin 2048 × Slots :=
  match ((List.range 8).map (probe pid)).find? fun s => (slots s).pid = pid with
  | some s => (s, slots)
  | none => (oldest slots pid, Function.update slots (oldest slots pid) { pid })

/-- `PID_DIR_MS` -/
def pidDirMs : Int := 200

/-- The generation is from within the throttle window. -/
def PidSlot.fresh (s : PidSlot) (t : Int) : Bool := s.ms ≠ 0 && t - s.ms < pidDirMs

/-- `pid_refresh`. -/
def Host.pidRefresh (h : Host) (slots : Slots) (pid : UInt32) (t : Int) : Slots × Option (Fin 2048) :=
  let (i, slots) := slotOf slots pid
  let s := slots i
  if s.fresh t then (slots, if s.start ≠ 0 then some i else none)
  else if h.alive pid then
    let start := h.startJiffies pid
    (Function.update slots i { s with
        vol := pidVolatile.map (h.pidText pid), ms := t, start,
        fixed := if start ≠ s.start then fun _ => [] else s.fixed },
      some i)
  else (Function.update slots i { s with vol := [], ms := t, start := 0 }, none)

/-- `pc_pid_content`. -/
def Host.pcPidContent (h : Host) (slots : Slots) (t : Int) (pid : UInt32) (name : Text) :
    Slots × Option Text :=
  match pidVolatile.idxOf? name with
  | some vi =>
      match h.pidRefresh slots pid t with
      | (slots, none) => (slots, none)
      | (slots, some i) => (slots, some ((slots i).vol.getD vi []))
  | none =>
      match pidStable.idxOf? name with
      | none => (slots, none)
      | some si =>
          if si < 2 ∨ (si = 2 ∧ pid ≠ h.selfPid) then
            match h.pidRefresh slots pid t with
            | (slots, none) => (slots, none)
            | (slots, some i) =>
                if (slots i).fixed si = [] then
                  match h.genPidFile pid name with
                  | none => (slots, none)
                  | some text =>
                      (Function.update slots i
                        { slots i with fixed := Function.update (slots i).fixed si text }, some text)
                else (slots, some ((slots i).fixed si))
          else (slots, if h.alive pid then h.genPidFile pid name else none)

/-- What stands behind the first separator, where it is the only one. -/
def lastOf (rest : Text) : Option Text :=
  match rest.dropWhile (· ≠ '/') with
  | [] => none
  | _ :: file => if '/' ∈ file then none else some file

/-- `pc_gen_node`. -/
def Host.pcGenNode (h : Host) (slots : Slots) (t : Int) (n : Node) : Slots × Option Text :=
  match n.kind with
  | .top => (slots, h.genTopFile n.name)
  | .netFile => (slots, h.genNetFile n.name)
  | .sys => (slots, h.genSysFile n.rest)
  | .pidSub =>
      if n.rest = [] then h.pcPidContent slots t n.pid n.name
      else if n.name = "task".toList then
        match lastOf n.rest with
        | some file => h.pcPidContent slots t n.pid file
        | none => (slots, none)
      else if n.name = "net".toList then
        (slots, if '/' ∉ n.rest ∧ h.alive n.pid = true then h.genNetFile n.rest else none)
      else (slots, none)
  | _ => (slots, none)

/-- A host with one process, of one thread and two descriptors. -/
def plainHost : Host where
  getpid := 7
  procs := [7]
  threads := fun _ => [7]
  fds := fun _ => [⟨0, "/dev/tty".toList⟩, ⟨1, "/dev/tty".toList⟩]
  pidLink := fun _ _ _ => some "/bin/sh".toList
  stat := fun _ => some ⟨.reg, 0o755, 1⟩
  startJiffies := fun _ => 100
  pidText := fun _ name => name
  topText := fun name => name
  netText := fun name => name
  sysText := fun name => name

/-! ## When a process has its content -/

/-- The file comes out of the slot. -/
def Host.slotted (h : Host) (pid : UInt32) (name : Text) : Bool :=
  name ∈ pidVolatile || name ∈ ["cmdline", "comm"].map String.toList ||
    (name = "environ".toList && pid ≠ h.selfPid)

/-- The slot is fresh and says that the process is absent. -/
def stuck (slots : Slots) (t : Int) (pid : UInt32) : Bool :=
  let (i, slots) := slotOf slots pid
  (slots i).fresh t && (slots i).start = 0

section Content

variable {h : Host} {slots : Slots} {t : Int} {pid : UInt32} {name : Text}

theorem pidRefresh_isSome (hp : h.alive pid = true) :
    (h.pidRefresh slots pid t).2.isSome = !stuck slots t pid := by
  unfold Host.pidRefresh stuck
  generalize slotOf slots pid = r
  obtain ⟨i, slots⟩ := r
  dsimp only
  cases hf : (slots i).fresh t with
  | true =>
    by_cases hs : (slots i).start = 0
    · simp [hs]
    · simp [hs]
  | false => simp [hp]

theorem genPidFile_isSome (hp : h.alive pid = true) (hn : name ∈ pidVolatile ++ pidStable) :
    (h.genPidFile pid name).isSome = true := by
  have hmem : ∀ n ∈ pidVolatile ++ pidStable, n = "cgroup".toList ∨ n = "oom_score_adj".toList ∨
      n = "oom_score".toList ∨ n ∈ ["cmdline", "comm", "environ", "limits", "maps", "mountinfo",
        "mounts", "stat", "status", "statm", "io"].map String.toList := by decide
  rw [Host.genPidFile, if_neg (by simp [hp])]
  split
  · rfl
  · split
    · rfl
    · rename_i hc ho
      rw [if_pos]
      · rfl
      · rcases hmem name hn with h | h | h | h
        · exact absurd h hc
        · exact absurd (Or.inl h) ho
        · exact absurd (Or.inr h) ho
        · exact h

theorem idxOf_volatile (hn : name ∈ pidVolatile) : ∃ vi, pidVolatile.idxOf? name = some vi := by
  have : ∀ n ∈ pidVolatile, (pidVolatile.idxOf? n).isSome = true := by decide
  exact Option.isSome_iff_exists.mp (this name hn)

/-- Where a stable file stands in its table. -/
theorem idxOf_stable (hv : name ∉ pidVolatile) (hn : name ∈ pidVolatile ++ pidStable) :
    pidVolatile.idxOf? name = none ∧ ∃ si, pidStable.idxOf? name = some si ∧
      (h.slotted pid name = true ↔ si < 2 ∨ (si = 2 ∧ pid ≠ h.selfPid)) := by
  have hn : name ∈ pidStable := (List.mem_append.mp hn).resolve_left hv
  have htable : ∀ n ∈ pidStable, (pidStable.idxOf? n).isSome = true ∧ pidVolatile.idxOf? n = none ∧
      ((pidStable.idxOf? n).getD 0 < 2 ↔ n ∈ ["cmdline", "comm"].map String.toList) ∧
      ((pidStable.idxOf? n).getD 0 = 2 ↔ n = "environ".toList) := by decide
  obtain ⟨hsome, hnone, hlow, htwo⟩ := htable name hn
  obtain ⟨si, hsi⟩ := Option.isSome_iff_exists.mp hsome
  rw [hsi, Option.getD_some] at hlow htwo
  refine ⟨hnone, si, hsi, ?_⟩
  rw [Host.slotted, hlow, htwo, decide_eq_false hv, Bool.false_or, Bool.or_eq_true,
    Bool.and_eq_true, decide_eq_true_iff, decide_eq_true_iff, decide_eq_true_iff]

/-- **A live process has the content of its files**, unless its slot says it is absent. -/
theorem pcPidContent_isSome (hp : h.alive pid = true) (hn : name ∈ pidVolatile ++ pidStable) :
    (h.pcPidContent slots t pid name).2.isSome =
      !(h.slotted pid name && stuck slots t pid) := by
  have hrefresh := @pidRefresh_isSome h slots t pid hp
  obtain ⟨text, htext⟩ := Option.isSome_iff_exists.mp (genPidFile_isSome hp hn)
  unfold Host.pcPidContent
  by_cases hv : name ∈ pidVolatile
  · obtain ⟨vi, hvi⟩ := idxOf_volatile hv
    have hslot : h.slotted pid name = true := by simp [Host.slotted, hv]
    rw [hvi, hslot, Bool.true_and, ← hrefresh]
    rcases h.pidRefresh slots pid t with ⟨slots', _ | i⟩ <;> rfl
  · obtain ⟨hnone, si, hsi, hslot⟩ := @idxOf_stable h pid name hv hn
    rw [hnone, hsi]
    dsimp only
    by_cases hs : si < 2 ∨ (si = 2 ∧ pid ≠ h.selfPid)
    · rw [if_pos hs, hslot.mpr hs, Bool.true_and, ← hrefresh]
      rcases h.pidRefresh slots pid t with ⟨slots', _ | i⟩
      · rfl
      · dsimp only
        split
        · rw [htext]
          rfl
        · rfl
    · rw [if_neg hs, Bool.eq_false_iff.mpr (fun hc => hs (hslot.mp hc)), if_pos hp, htext]
      rfl

end Content

end ApeShim.Procfs
