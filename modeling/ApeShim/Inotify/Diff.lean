import ApeShim.Inotify.Rounds

/-!
What a scan of a directory reports (`scan_dir` in `shim/inotify.c`): the old listing and the
new one, both in the order of `kid_cmp`, walked in step. A file replaced under its name is
reported gone and created, both with the new file's IN_ISDIR.
-/

namespace ApeShim.Inotify
open Flags

/-! ## Name order -/

theorem strcmp_eq : strcmp = List.compareLex compare := by
  funext a b
  induction a generalizing b with
  | nil => cases b <;> rfl
  | cons x a ih =>
    cases b with
    | nil => rfl
    | cons y b => simp [strcmp, ih, List.compareLex_cons_cons]

instance : Std.TransCmp strcmp := by
  rw [strcmp_eq]
  infer_instance

instance : Std.LawfulEqCmp strcmp := by
  rw [strcmp_eq]
  infer_instance

/-- In name order, and no name twice. -/
def Listed (ks : List Kid) : Prop := Join.Sorted strcmp Kid.name ks

/-! ## The new listing -/

/-- The listing loop takes the entry. -/
def Shown (path name : Name) : Prop :=
  name ≠ dot ∧ name ≠ dotdot ∧ path.length + 1 + name.length < pathMax

instance (path name : Name) : Decidable (Shown path name) :=
  inferInstanceAs (Decidable (name ≠ dot ∧ name ≠ dotdot ∧ _))

/-- The directory's entries, in name order. -/
structure Lists (path : Name) (l : List (Name × Option Stat)) (now : List Kid) : Prop where
  sorted : Listed now
  mem : ∀ k, k ∈ now ↔ (k.name, some k.st) ∈ l ∧ Shown path k.name

instance : Std.Total fun a b : Kid => strcmp a.name b.name ≠ .gt where
  total a b := by
    by_contra hboth
    push Not at hboth
    have hlt := Std.OrientedCmp.gt_iff_lt.mp hboth.1
    rw [hboth.2] at hlt
    cases hlt

instance : IsTrans Kid fun a b => strcmp a.name b.name ≠ .gt where
  trans a b c hab hbc := by
    exact Ordering.isLE_iff_ne_gt.mp
      (Std.TransCmp.isLE_trans (Ordering.isLE_iff_ne_gt.mpr hab) (Ordering.isLE_iff_ne_gt.mpr hbc))

theorem mem_listKids {path : Name} {l : List (Name × Option Stat)} {k : Kid} :
    k ∈ listKids path l ↔ (k.name, some k.st) ∈ l ∧ Shown path k.name := by
  simp only [listKids, List.mem_insertionSort, List.mem_filterMap, Prod.exists]
  constructor
  · rintro ⟨name, st, hmem, hk⟩
    split_ifs at hk with hskip
    obtain ⟨s, rfl, rfl⟩ := Option.map_eq_some_iff.mp hk
    simp only [not_or] at hskip
    exact ⟨hmem, hskip.1, hskip.2.1, Nat.lt_of_not_le hskip.2.2⟩
  · rintro ⟨hmem, hdot, hdotdot, hlen⟩
    refine ⟨k.name, some k.st, hmem, ?_⟩
    rw [if_neg (not_or.mpr ⟨hdot, not_or.mpr ⟨hdotdot, by omega⟩⟩)]
    rfl

theorem names_listKids {path : Name} {l : List (Name × Option Stat)}
    (hl : (l.map Prod.fst).Nodup) : ((listKids path l).map Kid.name).Nodup := by
  have hkept : ∀ l : List (Name × Option Stat), ((l.filterMap fun e =>
      if e.1 = dot ∨ e.1 = dotdot ∨ path.length + 1 + e.1.length ≥ pathMax then none
      else e.2.map (Kid.mk e.1)).map Kid.name).Sublist (l.map Prod.fst) := by
    intro l
    induction l with
    | nil => exact .slnil
    | cons e l ih =>
      simp only [List.filterMap_cons, List.map_cons]
      split
      · exact ih.cons _
      · rename_i k hk
        split_ifs at hk
        obtain ⟨s, _, rfl⟩ := Option.map_eq_some_iff.mp hk
        exact ih.cons_cons _
  refine ((List.perm_insertionSort _ _).map Kid.name).nodup_iff.mpr ?_
  exact (hkept l).nodup hl

/-- The loop and the sort give the directory's entries. -/
theorem listKids_lists {path : Name} {l : List (Name × Option Stat)}
    (hl : (l.map Prod.fst).Nodup) : Lists path l (listKids path l) where
  sorted := by
    have hle := List.pairwise_insertionSort (fun a b : Kid => strcmp a.name b.name ≠ .gt)
    have hnames : ((listKids path l).map Kid.name).Nodup := names_listKids hl
    have hne := List.pairwise_map.mp hnames
    refine (List.Pairwise.and (hle _) hne).imp ?_
    rintro a b ⟨hab, hnames⟩
    cases hcmp : strcmp a.name b.name with
    | lt => rfl
    | eq => exact absurd (Std.LawfulEqCmp.compare_eq_iff_eq.mp hcmp) hnames
    | gt => exact absurd hcmp hab
  mem _ := mem_listKids

theorem Lists.unique {path : Name} {l : List (Name × Option Stat)} {now now' : List Kid}
    (h : Lists path l now) (h' : Lists path l now') : now = now' :=
  h.sorted.ext h'.sorted fun k => (h.mem k).trans (h'.mem k).symm

/-- Any listing in order comes of some directory. -/
theorem Listed.lists {path : Name} {now : List Kid} (h : Listed now)
    (hshown : ∀ k ∈ now, Shown path k.name) :
    Lists path (now.map fun k => (k.name, some k.st)) now where
  sorted := h
  mem k := by
    simp only [List.mem_map, Prod.mk.injEq, Option.some.injEq]
    constructor
    · intro hk
      exact ⟨⟨k, hk, rfl, rfl⟩, hshown k hk⟩
    · rintro ⟨⟨⟨name, st⟩, hk, rfl, rfl⟩, _⟩
      exact hk

/-! ## What a name calls for -/

/-- An event of the entry, if the watch asks for it. -/
def report (mask ev : Mask) (k : Kid) : List (Mask × Name) :=
  if has mask ev then [(orIsdir ev k.st.isdir, k.name)] else []

/-- What the two listings say of one name. -/
def changes (mask : Mask) : Option Kid → Option Kid → List (Mask × Name)
  | none, none => []
  | some o, none => report mask inDelete o
  | none, some p => report mask inCreate p
  | some o, some p =>
      if o.st.ino ≠ p.st.ino then report mask inDelete o ++ report mask inCreate p
      else
        (if touched o.st p.st then report mask inModify p else []) ++
          (if o.st.mode ≠ p.st.mode then report mask inAttrib p else [])

/-- In name order, what each name of either listing calls for. -/
def ExactDiff (mask : Mask) (old now : List Kid) (calls : List (Mask × Name)) : Prop :=
  ∃ names : List Name, names.Pairwise (fun a b => strcmp a b = .lt) ∧
    (∀ n, n ∈ names ↔ n ∈ old.map Kid.name ∨ n ∈ now.map Kid.name) ∧
    calls = names.flatMap fun n =>
      changes mask (Join.find Kid.name old n) (Join.find Kid.name now n)

/-- Whatever the writes answer, the scan reports the changes and keeps the new listing. -/
def ScansExactly (w : Watch) (l : List (Name × Option Stat)) : Prop :=
  ∃ now calls, Lists w.path l now ∧ ExactDiff w.mask w.kids now calls ∧
    ∀ wr g, scanDir wr (.entries l) g w = (g.emitAll wr w.wd calls, { w with kids := now })

/-- No directory was replaced by something else under its name, or the other way round, while
the watch asks for IN_DELETE. -/
def Unswapped (w : Watch) (l : List (Name × Option Stat)) : Prop :=
  has w.mask inDelete = true → ∀ o ∈ w.kids, ∀ st, (o.name, some st) ∈ l → Shown w.path o.name →
    o.st.ino ≠ st.ino → o.st.isdir = st.isdir

/-! ## The walk -/

/-- The walk's rows are the names of either listing, in order. -/
theorem exactDiff_iff {mask : Mask} {old now : List Kid} {calls : List (Mask × Name)}
    (hold : Listed old) (hnow : Listed now) :
    ExactDiff mask old now calls ↔
      calls = (Join.walk strcmp Kid.name old now).flatMap fun r => changes mask r.fst r.snd := by
  have hspec := Join.walk_spec hold hnow
  have hsorted : ((Join.walk strcmp Kid.name old now).map (Join.Row.key Kid.name)).Pairwise
      fun a b => strcmp a b = .lt := List.pairwise_map.mpr (Join.walk_sorted hold hnow)
  have hmem := fun n => @Join.mem_keys_walk _ _ strcmp Kid.name _ n old now
  have hrows : ((Join.walk strcmp Kid.name old now).map (Join.Row.key Kid.name)).flatMap
      (fun n => changes mask (Join.find Kid.name old n) (Join.find Kid.name now n)) =
      (Join.walk strcmp Kid.name old now).flatMap fun r => changes mask r.fst r.snd := by
    rw [List.flatMap_map]
    refine List.flatMap_congr fun r hr => ?_
    obtain ⟨hfst, hsnd⟩ := hspec r hr
    rw [hfst, hsnd]
  constructor
  · rintro ⟨names, hnames, hmem', rfl⟩
    have huniq : names = (Join.walk strcmp Kid.name old now).map (Join.Row.key Kid.name) :=
      @Join.Sorted.ext _ _ strcmp id _ _ _ hnames hsorted fun n => (hmem' n).trans (hmem n).symm
    rw [huniq, hrows]
  · rintro rfl
    exact ⟨_, hsorted, hmem, hrows.symm⟩

/-! ## The replaced file -/

theorem orIsdir_inDelete_inj {b c : Bool} (h : orIsdir inDelete b = orIsdir inDelete c) : b = c := by
  revert b c
  decide

/-- A name in both listings is told of as it should be, but that a replaced file's IN_DELETE
has the kind of the new one. -/
theorem kept_eq_iff {mask : Mask} {o p : Kid} :
    kept mask o p = changes mask (some o) (some p) ↔
      (has mask inDelete = true → o.st.ino ≠ p.st.ino → o.st.isdir = p.st.isdir) := by
  by_cases hino : o.st.ino = p.st.ino
  · have hsame : kept mask o p = changes mask (some o) (some p) := by
      cases htouched : touched o.st p.st <;> simp [kept, changes, report, hino, htouched, ite_and]
    simp [hsame, hino]
  · cases hdelete : has mask inDelete with
    | false => simp [kept, changes, report, hino, hdelete]
    | true =>
      simp only [kept, changes, report, hino, hdelete, ne_eq, not_false_eq_true, if_true,
        List.append_cancel_right_eq, List.cons.injEq, Prod.mk.injEq, and_true, true_imp_iff]
      constructor
      · intro hmask
        exact (orIsdir_inDelete_inj hmask).symm
      · intro hkind
        rw [hkind]

theorem length_kept (mask : Mask) (o p : Kid) :
    (kept mask o p).length = (changes mask (some o) (some p)).length := by
  by_cases hino : o.st.ino = p.st.ino
  · have hsame : kept mask o p = changes mask (some o) (some p) :=
      kept_eq_iff.mpr fun _ hne => absurd hino hne
    rw [hsame]
  · simp only [kept, changes, report, hino, ne_eq, not_false_eq_true, if_true, List.length_append]
    split_ifs <;> rfl

theorem length_rowCalls (mask : Mask) (r : Join.Row Kid) :
    (rowCalls mask r).length = (changes mask r.fst r.snd).length := by
  cases r with
  | left o => rfl
  | right p => rfl
  | both o p => exact length_kept mask o p

theorem flatMap_eq_iff {α β : Type} {l : List α} {f g : α → List β}
    (hlen : ∀ a ∈ l, (f a).length = (g a).length) :
    l.flatMap f = l.flatMap g ↔ ∀ a ∈ l, f a = g a := by
  induction l with
  | nil => simp
  | cons a l ih =>
    simp only [List.forall_mem_cons] at hlen
    rw [List.flatMap_cons, List.flatMap_cons, List.forall_mem_cons, ← ih hlen.2]
    constructor
    · intro h
      exact List.append_inj h hlen.1
    · rintro ⟨ha, hl⟩
      rw [ha, hl]

/-- The walk tells of every change as it should exactly when no replaced file was of another
kind. -/
theorem diff_exact_iff {mask : Mask} {old now : List Kid} (hold : Listed old)
    (hnow : Listed now) : ExactDiff mask old now (diff mask old now) ↔
      (has mask inDelete = true → ∀ o ∈ old, ∀ p ∈ now, o.name = p.name →
        o.st.ino ≠ p.st.ino → o.st.isdir = p.st.isdir) := by
  have hspec := Join.walk_spec hold hnow
  rw [exactDiff_iff hold hnow, diff_eq, flatMap_eq_iff fun r _ => length_rowCalls mask r]
  constructor
  · intro hrows hdelete o ho p hp hname hino
    have hkey : o.name ∈ (Join.walk strcmp Kid.name old now).map (Join.Row.key Kid.name) :=
      (Join.mem_keys_walk old now).mpr (.inl (List.mem_map_of_mem ho))
    obtain ⟨r, hr, hrkey⟩ := List.mem_map.mp hkey
    obtain ⟨hfst, hsnd⟩ := hspec r hr
    rw [hrkey, (Join.find_eq_some_iff hold).mpr ⟨ho, rfl⟩] at hfst
    rw [hrkey, (Join.find_eq_some_iff hnow).mpr ⟨hp, hname.symm⟩] at hsnd
    have hrow := hrows r hr
    cases r with
    | left o' => cases hsnd
    | right p' => cases hfst
    | both o' p' =>
      cases hfst
      cases hsnd
      exact kept_eq_iff.mp hrow hdelete hino
  · intro hkind r hr
    cases r with
    | left o => rfl
    | right p => rfl
    | both o p =>
      obtain ⟨hfst, hsnd⟩ := hspec _ hr
      obtain ⟨ho, _⟩ := (Join.find_eq_some_iff hold).mp hfst.symm
      obtain ⟨hp, hname⟩ := (Join.find_eq_some_iff hnow).mp hsnd.symm
      exact kept_eq_iff.mpr fun hdelete => hkind hdelete o ho p hp hname.symm

theorem rowCalls_eq_of_masks {mask : Mask} {r : Join.Row Kid}
    (h : (rowCalls mask r).map Prod.fst = (changes mask r.fst r.snd).map Prod.fst) :
    rowCalls mask r = changes mask r.fst r.snd := by
  cases r with
  | left o => rfl
  | right p => rfl
  | both o p =>
    refine kept_eq_iff.mpr fun hdelete hino => ?_
    simp only [rowCalls, Join.Row.fst, Join.Row.snd, kept, changes, report, hino, hdelete, ne_eq,
      not_false_eq_true, if_true, List.cons_append, List.nil_append, List.map_cons,
      List.cons.injEq] at h
    exact (orIsdir_inDelete_inj h.1).symm

/-- The masks alone tell whether the walk's calls are the right ones. -/
theorem diff_eq_of_masks {mask : Mask} {old now : List Kid} {calls : List (Mask × Name)}
    (hold : Listed old) (hnow : Listed now) (hcalls : ExactDiff mask old now calls)
    (hmasks : (diff mask old now).map Prod.fst = calls.map Prod.fst) :
    diff mask old now = calls := by
  rw [(exactDiff_iff hold hnow).mp hcalls, diff_eq] at hmasks ⊢
  rw [List.map_flatMap, List.map_flatMap, flatMap_eq_iff] at hmasks
  · exact List.flatMap_congr fun r hr => rowCalls_eq_of_masks (hmasks r hr)
  · intro r _
    simp only [List.length_map, length_rowCalls]

/-! ## The scan -/

/-- With room for every record, the pipe gets a record for each call. -/
theorem emitAll_sent (wd : Int) (calls : List (Mask × Name)) (g : Inst) (hlive : g.dead = false) :
    (g.emitAll (fun _ => .took .ok) wd calls).sent =
      (calls.map fun c => record wd c.1 c.2).reverse ++ g.sent := by
  induction calls generalizing g with
  | nil => rfl
  | cons c calls ih =>
    have hstep : g.emitAll (fun _ => .took .ok) wd (c :: calls) =
        (g.emit (fun _ => .took .ok) wd c.1 c.2).emitAll (fun _ => .took .ok) wd calls := rfl
    have hemit : g.emit (fun _ => .took .ok) wd c.1 c.2 =
        { g with sent := record wd c.1 c.2 :: g.sent } := by
      simp [Inst.emit, hlive]
    have hstill : (g.emit (fun _ => .took .ok) wd c.1 c.2).dead = false := by
      rw [hemit]
      exact hlive
    rw [hstep, ih _ hstill, hemit]
    simp

/-- Which entries were replaced, read off the new listing. -/
theorem unswapped_iff {w : Watch} {l : List (Name × Option Stat)}
    (hnew : (l.map Prod.fst).Nodup) : Unswapped w l ↔
      (has w.mask inDelete = true → ∀ o ∈ w.kids, ∀ p ∈ listKids w.path l, o.name = p.name →
        o.st.ino ≠ p.st.ino → o.st.isdir = p.st.isdir) := by
  have hnow : Lists w.path l (listKids w.path l) := listKids_lists hnew
  constructor
  · intro h hdelete o ho p hp hname hino
    obtain ⟨hmem, hshown⟩ := (hnow.mem p).mp hp
    rw [← hname] at hmem hshown
    exact h hdelete o ho p.st hmem hshown hino
  · intro h hdelete o ho st hmem hshown hino
    exact h hdelete o ho ⟨o.name, st⟩ ((hnow.mem _).mpr ⟨hmem, hshown⟩) rfl hino

theorem unswapped_of_scansExactly {w : Watch} {l : List (Name × Option Stat)}
    (hold : Listed w.kids) (hnew : (l.map Prod.fst).Nodup) (h : ScansExactly w l) :
    Unswapped w l := by
  have hnow : Lists w.path l (listKids w.path l) := listKids_lists hnew
  rw [unswapped_iff hnew, ← diff_exact_iff hold hnow.sorted]
  obtain ⟨now, calls, hlists, hcalls, hscan⟩ := h
  obtain rfl := hlists.unique hnow
  -- an instance with nothing written yet shows the calls by the records they leave
  have hsent := congrArg (fun r : Inst × Watch => r.1.sent.map Event.mask)
    (hscan (fun _ => .took .ok) ⟨0, 0, 1, false, false, false, [], 0, []⟩)
  simp only [scanDir, emitAll_sent, List.append_nil, List.map_reverse, List.map_map,
    List.reverse_inj, Function.comp_def, record_mask] at hsent
  rw [diff_eq_of_masks hold hlists.sorted hcalls hsent]
  exact hcalls

/-- `scan_dir` reports the changes between the listings exactly when, with IN_DELETE asked
for, no entry was replaced by one of another kind. -/
theorem scans_exactly_iff {w : Watch} {l : List (Name × Option Stat)} (hold : Listed w.kids)
    (hnew : (l.map Prod.fst).Nodup) : ScansExactly w l ↔ Unswapped w l := by
  constructor
  · exact unswapped_of_scansExactly hold hnew
  · intro h
    have hnow : Lists w.path l (listKids w.path l) := listKids_lists hnew
    rw [unswapped_iff hnew, ← diff_exact_iff hold hnow.sorted] at h
    exact ⟨_, _, hnow, h, fun _ _ => rfl⟩

/-- The listing a watch keeps stays in order. -/
theorem Listed.scanDir {wr : Nat → Written} {ls : Listing} {g : Inst} {w : Watch}
    (hold : Listed w.kids) (hnew : ∀ l, ls = .entries l → (l.map Prod.fst).Nodup) :
    Listed (scanDir wr ls g w).2.kids := by
  cases ls with
  | gone => exact hold
  | error => exact hold
  | entries l => exact (listKids_lists (hnew l rfl)).sorted

/-! ## A replaced directory -/

def aFolder : Stat := ⟨1, 0, 0, 0, 0, true⟩

def aText : Stat := ⟨2, 0, 0, 0, 0, false⟩

/-- The watched directory has one entry, a folder named `a`. -/
def holdsFolder (mask : Mask) : Watch := ⟨1, [100], mask, true, false, [⟨[97], aFolder⟩], aFolder⟩

theorem holdsFolder_listed (mask : Mask) : Listed (holdsFolder mask).kids :=
  List.pairwise_singleton _ _

theorem aText_nodup : (([([97], some aText)] : List (Name × Option Stat)).map Prod.fst).Nodup :=
  List.nodup_singleton _

/-- Asked for IN_CREATE alone, the replacement is told of as it should be. -/
theorem holdsFolder_scans_exactly :
    ScansExactly (holdsFolder inCreate) [([97], some aText)] ↔
      Unswapped (holdsFolder inCreate) [([97], some aText)] :=
  scans_exactly_iff (holdsFolder_listed inCreate) aText_nodup

/-- A folder replaced by a file is reported gone as if it had been a file. -/
theorem holdsFolder_misreported :
    ¬ ScansExactly (holdsFolder inDelete) [([97], some aText)] := by
  intro h
  have hkind := unswapped_of_scansExactly (holdsFolder_listed inDelete) aText_nodup h
  have hsame : aFolder.isdir = aText.isdir :=
    hkind (by decide) ⟨[97], aFolder⟩ (List.mem_singleton.mpr rfl) aText
      (List.mem_singleton.mpr rfl) (by decide) (by decide)
  cases hsame

end ApeShim.Inotify
