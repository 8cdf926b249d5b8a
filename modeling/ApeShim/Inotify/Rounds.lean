import ApeShim.Lib.Join
import ApeShim.Inotify.Watches

/-!
What a round of the scan reports, apart from what becomes of it: the calls of `emit` depend on
the watches and on what the host shows, and only their fate depends on the writes.
-/

namespace ApeShim.Inotify
open Flags

/-! ## Calls of emit -/

/-- One call of `emit`. -/
structure Call where
  wd : Int
  mask : Mask
  name : Name
  deriving DecidableEq, Repr

def Call.record (c : Call) : Event := Inotify.record c.wd c.mask c.name

def Inst.emitEach (wr : Nat → Written) (g : Inst) (calls : List Call) : Inst :=
  calls.foldl (fun g c => g.emit wr c.wd c.mask c.name) g

/-- A watch's calls. -/
def callsOf (wd : Int) (calls : List (Mask × Name)) : List Call :=
  calls.map fun c => ⟨wd, c.1, c.2⟩

/-- The record that stands for the events that were dropped. -/
def overflowCall : Call := ⟨-1, inQOverflow, []⟩

section

variable {wr : Nat → Written} {g : Inst}

@[simp] theorem emitEach_nil : g.emitEach wr [] = g := rfl

@[simp] theorem emitEach_cons (c : Call) (calls : List Call) :
    g.emitEach wr (c :: calls) = (g.emit wr c.wd c.mask c.name).emitEach wr calls := rfl

theorem emitEach_append (calls calls' : List Call) :
    g.emitEach wr (calls ++ calls') = (g.emitEach wr calls).emitEach wr calls' :=
  List.foldl_append

theorem emitAll_eq (wd : Int) (calls : List (Mask × Name)) :
    g.emitAll wr wd calls = g.emitEach wr (callsOf wd calls) := by
  induction calls generalizing g with
  | nil => rfl
  | cons c calls ih => exact ih

end

/-! ## The two listings -/

/-- The calls for what the walk meets. -/
def rowCalls (mask : Mask) : Join.Row Kid → List (Mask × Name)
  | .left o => gone mask o
  | .right p => appeared mask p
  | .both o p => kept mask o p

theorem diffLoop_eq (mask : Mask) {fuel : Nat} {old now : List Kid}
    (hfuel : old.length + now.length ≤ fuel) :
    diffLoop mask fuel old now = (Join.walk strcmp Kid.name old now).flatMap (rowCalls mask) := by
  induction fuel generalizing old now with
  | zero =>
    obtain rfl : old = [] := List.eq_nil_of_length_eq_zero (by omega)
    obtain rfl : now = [] := List.eq_nil_of_length_eq_zero (by omega)
    simp [diffLoop, Join.walk]
  | succ fuel ih =>
    cases old with
    | nil =>
      cases now with
      | nil => simp [diffLoop, Join.walk]
      | cons p now =>
        simp only [List.length_cons, List.length_nil] at hfuel
        rw [diffLoop, Join.walk, List.flatMap_cons, ih (by simp only [List.length_nil]; omega)]
        rfl
    | cons o old =>
      cases now with
      | nil =>
        simp only [List.length_cons, List.length_nil] at hfuel
        rw [diffLoop, Join.walk, List.flatMap_cons, ih (by simp only [List.length_nil]; omega)]
        rfl
      | cons p now =>
        simp only [List.length_cons] at hfuel
        rw [diffLoop, Join.walk]
        cases strcmp o.name p.name with
        | lt =>
          simp only [List.flatMap_cons]
          rw [ih (by simp only [List.length_cons]; omega)]
          rfl
        | gt =>
          simp only [List.flatMap_cons]
          rw [ih (by simp only [List.length_cons]; omega)]
          rfl
        | eq =>
          simp only [List.flatMap_cons]
          rw [ih (by omega)]
          rfl

theorem diff_eq (mask : Mask) (old now : List Kid) :
    diff mask old now = (Join.walk strcmp Kid.name old now).flatMap (rowCalls mask) :=
  diffLoop_eq mask (le_refl _)

/-- An event of a listing's entry or of a file, with or without IN_ISDIR. -/
def IsChange (m : Mask) : Prop :=
  ∃ ev ∈ [inModify, inAttrib, inCreate, inDelete], ∃ isdir, m = orIsdir ev isdir

theorem IsChange.ne {m : Mask} (h : IsChange m) : m ≠ inIgnored ∧ m ≠ inQOverflow := by
  obtain ⟨ev, hev, isdir, rfl⟩ := h
  simp only [List.mem_cons, List.not_mem_nil, or_false] at hev
  rcases hev with rfl | rfl | rfl | rfl
  all_goals cases isdir <;> decide

theorem mem_ite_singleton {α : Type} {p : Prop} [Decidable p] {a b : α}
    (h : a ∈ if p then [b] else []) : a = b := by
  split_ifs at h
  · exact List.mem_singleton.mp h
  · cases h

theorem kept_changes {mask : Mask} {o p : Kid} {c : Mask × Name} (hc : c ∈ kept mask o p) :
    IsChange c.1 := by
  unfold kept at hc
  split at hc
  · rcases List.mem_append.mp hc with hc | hc
    · rw [mem_ite_singleton hc]
      exact ⟨inDelete, by simp, _, rfl⟩
    · rw [mem_ite_singleton hc]
      exact ⟨inCreate, by simp, _, rfl⟩
  · rcases List.mem_append.mp hc with hc | hc
    · rw [mem_ite_singleton hc]
      exact ⟨inModify, by simp, _, rfl⟩
    · rw [mem_ite_singleton hc]
      exact ⟨inAttrib, by simp, _, rfl⟩

theorem diff_changes {mask : Mask} {old now : List Kid} {c : Mask × Name}
    (hc : c ∈ diff mask old now) : IsChange c.1 := by
  rw [diff_eq] at hc
  obtain ⟨row, _, hc⟩ := List.mem_flatMap.mp hc
  cases row with
  | left o =>
    rw [mem_ite_singleton hc]
    exact ⟨inDelete, by simp, _, rfl⟩
  | right p =>
    rw [mem_ite_singleton hc]
    exact ⟨inCreate, by simp, _, rfl⟩
  | both o p => exact kept_changes hc

theorem selfChanged_changes {mask : Mask} {o p : Stat} {c : Mask × Name}
    (hc : c ∈ selfChanged mask o p) : IsChange c.1 := by
  unfold selfChanged at hc
  split at hc
  · rw [mem_ite_singleton hc]
    exact ⟨inAttrib, by simp, false, rfl⟩
  · rcases List.mem_append.mp hc with hc | hc
    · rw [mem_ite_singleton hc]
      exact ⟨inModify, by simp, false, rfl⟩
    · rw [mem_ite_singleton hc]
      exact ⟨inAttrib, by simp, false, rfl⟩

/-- Silenced, the walk reports nothing. -/
theorem diff_silent (old now : List Kid) : diff 0#32 old now = [] := by
  rw [diff_eq, List.flatMap_eq_nil_iff]
  intro row _
  cases row with
  | left o => simp [rowCalls, gone]
  | right p => simp [rowCalls, appeared]
  | both o p => simp [rowCalls, kept]

/-! ## The reports of a scan -/

/-- A scan of a directory. -/
def dirCalls (ls : Listing) (w : Watch) : List (Mask × Name) :=
  match ls with
  | .gone => selfGone w.mask ++ if w.mask ≠ 0#32 then [(inIgnored, [])] else []
  | .error => []
  | .entries l => diff w.mask w.kids (listKids w.path l)

/-- A scan of a file. -/
def fileCalls (host : Host) (w : Watch) : List (Mask × Name) :=
  match host.stat (has w.mask inDontFollow) w.path with
  | .gone => selfGone w.mask ++ [(inIgnored, [])]
  | .error => []
  | .found st => selfChanged w.mask w.self st

def watchCalls (host : Host) (w : Watch) : List (Mask × Name) :=
  if w.dropped then []
  else if w.isdir then dirCalls (host.opendir w.path) w
  else fileCalls host w

/-- What a round finds to report, watch by watch. -/
def roundCalls (host : Host) (ws : List Watch) : List Call :=
  ws.flatMap fun w => callsOf w.wd (watchCalls host w)

/-! ## The watches after a scan -/

def dirScanned (ls : Listing) (w : Watch) : Watch :=
  match ls with
  | .gone => { w with dropped := true }
  | .error => w
  | .entries l => { w with kids := listKids w.path l }

def fileScanned (host : Host) (w : Watch) : Watch :=
  match host.stat (has w.mask inDontFollow) w.path with
  | .gone => { w with dropped := true }
  | .error => w
  | .found st => { w with self := st }

def scanned (host : Host) (w : Watch) : Watch :=
  if w.dropped then w
  else if w.isdir then dirScanned (host.opendir w.path) w
  else fileScanned host w

section

variable {wr : Nat → Written} {g : Inst}

theorem scanDir_eq (ls : Listing) (w : Watch) :
    scanDir wr ls g w = (g.emitEach wr (callsOf w.wd (dirCalls ls w)), dirScanned ls w) := by
  cases ls with
  | gone => simp only [scanDir, dirCalls, dirScanned, emitAll_eq]
  | error => rfl
  | entries l => simp only [scanDir, dirCalls, dirScanned, emitAll_eq]

theorem scanFile_eq (host : Host) (w : Watch) :
    scanFile wr host g w =
      (g.emitEach wr (callsOf w.wd (fileCalls host w)), fileScanned host w) := by
  unfold scanFile fileCalls fileScanned
  cases host.stat (has w.mask inDontFollow) w.path with
  | gone => simp only [emitAll_eq]
  | error => rfl
  | found st => simp only [emitAll_eq]

theorem scanWatch_eq (host : Host) (w : Watch) :
    scanWatch wr host g w =
      (g.emitEach wr (callsOf w.wd (watchCalls host w)), scanned host w) := by
  unfold scanWatch watchCalls scanned
  split_ifs
  · rfl
  · exact scanDir_eq _ w
  · exact scanFile_eq host w

theorem scanAll_eq (host : Host) (ws : List Watch) :
    scanAll wr host g ws = (g.emitEach wr (roundCalls host ws), ws.map (scanned host)) := by
  induction ws generalizing g with
  | nil => rfl
  | cons w ws ih =>
    simp only [scanAll, scanWatch_eq, ih, roundCalls, List.flatMap_cons, emitEach_append,
      List.map_cons]

/-! ## A round -/

/-- The overflow record, if one is due, and then the reports. -/
def Inst.due (g : Inst) (host : Host) : List Call :=
  (if g.overflow then [overflowCall] else []) ++ roundCalls host g.watches

theorem pass_eq (host : Host) :
    g.pass wr host = { ({ g with overflow := false }.emitEach wr (g.due host)) with
      watches := reap (g.watches.map (scanned host)) } := by
  unfold Inst.pass Inst.due Inst.tellOverflow
  rw [scanAll_eq]
  cases hflag : g.overflow with
  | true => rfl
  | false =>
    have hsame : { g with overflow := false } = g := by rw [← hflag]
    simp only [hsame, Bool.false_eq_true, if_false, List.nil_append]

/-- Silenced, a scan of a directory reports nothing. -/
theorem dirCalls_silent (ls : Listing) {w : Watch} (hmask : w.mask = 0#32) :
    dirCalls ls w = [] := by
  cases ls with
  | gone => simp [dirCalls, selfGone, hmask]
  | error => rfl
  | entries l =>
    simp only [dirCalls, hmask]
    exact diff_silent _ _

/-- The first listing of a watch reports nothing. -/
theorem firstScan_eq (ls : Listing) (path : Name) (mask : Mask) (st : Stat) :
    firstScan wr ls g path mask st =
      ({ g with nextWd := incr g.nextWd },
        let w : Watch := ⟨g.nextWd, path, mask, st.isdir, false, [], st⟩
        if st.isdir then { dirScanned ls { w with mask := 0#32 } with mask := mask } else w) := by
  unfold firstScan
  split_ifs with hdir
  · simp only [scanDir_eq]
    rw [dirCalls_silent ls rfl]
    rfl
  · rfl

end

end ApeShim.Inotify
