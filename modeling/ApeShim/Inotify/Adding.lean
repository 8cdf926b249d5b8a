import ApeShim.Inotify.Lives

/-!
What a call of `emu_add_watch` does to the watches. A path that is watched keeps its descriptor;
a new path gets the next one. The new watch is on the list before the scan thread is started, and
stays there when it cannot be; and the first listing may mark it before the call returns.
-/

namespace ApeShim.Inotify
open Flags Trace

/-! ## The watches there are -/

def Watch.entry (w : Watch) : Int × Name × Mask := (w.wd, w.path, w.mask)

/-- The watches that the calls and the scans go by: those not marked. -/
def Inst.live (g : Inst) : List (Int × Name × Mask) :=
  (g.watches.filter fun w => !w.dropped).map Watch.entry

def newMask (mask old : Mask) : Mask := if has mask inMaskAdd then old ||| mask else mask

/-- A successful call: on a watched path it gives that watch's descriptor and changes its mask,
on a new one it adds one watch under a descriptor never used. -/
structure Adds (used : List Int) (path : Name) (mask : Mask) (wd : Int)
    (before after : List (Int × Name × Mask)) : Prop where
  watched : ∀ v m, (v, path, m) ∈ before → wd = v ∧ ∃ l₁ l₂, before = l₁ ++ (v, path, m) :: l₂ ∧
    after = l₁ ++ (v, path, newMask mask m) :: l₂
  new : (∀ v m, (v, path, m) ∉ before) → wd ∉ used ∧ after = before ++ [(wd, path, mask)]

/-- All or nothing: a call that fails leaves every instance's watches as they were, and one that
succeeds adds to those of the instance with the number, and to no others. -/
structure Atomic (s : State) (used : List Int) (fd : Int) (path : Option Name) (mask : Mask)
    (r : Outcome Int) : Prop where
  fails : ∀ e, r.result = .error e → ∀ i, (r.state.slots i).map Inst.live = (s.slots i).map Inst.live
  adds : ∀ wd, r.result = .ok wd → ∃ i g p after, s.instByFd fd = some (i, g) ∧ path = some p ∧
    (∀ j, j ≠ i → (r.state.slots j).map Inst.live = (s.slots j).map Inst.live) ∧
    (r.state.slots i).map Inst.live = some after ∧ Adds used p mask wd g.live after

/-- Where the call draws a new descriptor, the directory is still there for the first listing
exactly if the scan thread is there or can be started. -/
def Backed (s : State) (fd : Int) (path : Option Name) (mask : Mask) (host : Host)
    (res : Resources) : Prop :=
  ∀ i g p st, s.target fd path mask host = .ok (i, g, p, st) →
    g.watches.find? (liveAt p) = none → g.watches.length < maxWatches → res.grow = true →
    res.dup = true →
    ((g.scanning = true ∨ res.spawn = true) ↔ ¬ (st.isdir = true ∧ host.opendir p = .gone))

/-! ## The descriptors used -/

/-- The counter has room for one more. -/
def Roomy (g : Inst) : Op → Prop
  | .addWatch .. => g.nextWd < 2 ^ 31 - 1
  | _ => True

/-- Every descriptor on the list or used before is below the next, and no path is watched twice. -/
structure Inst.Regular (g : Inst) (used : List Int) : Prop where
  listed : ∀ w ∈ g.watches, w.wd < g.nextWd
  below : ∀ wd ∈ used, wd < g.nextWd
  positive : 0 < g.nextWd
  paths : (g.live.map fun e => e.2.1).Nodup

@[simp] theorem scanned_entry (host : Host) (w : Watch) : (scanned host w).entry = w.entry := by
  unfold scanned dirScanned fileScanned
  split_ifs
  · rfl
  · split <;> rfl
  · split <;> rfl

theorem scanned_dropped {host : Host} {w : Watch} (h : w.dropped = true) :
    (scanned host w).dropped = true := by
  rw [scanned, if_pos h]
  exact h

section

variable {wr : Nat → Written} {g : Inst}

/-- What is left after a round was there before it. -/
theorem live_scanned_sublist (host : Host) (ws : List Watch) :
    (((ws.map (scanned host)).filter fun w => !w.dropped).map Watch.entry).Sublist
      ((ws.filter fun w => !w.dropped).map Watch.entry) := by
  induction ws with
  | nil => exact .slnil
  | cons w ws ih =>
    cases hdropped : w.dropped with
    | true => simpa [List.filter_cons, hdropped, scanned_dropped hdropped] using ih
    | false =>
      cases hafter : (scanned host w).dropped with
      | true => simpa [List.filter_cons, hdropped, hafter] using ih.cons _
      | false => simpa [List.filter_cons, hdropped, hafter] using ih.cons_cons w.entry

theorem Inst.live_sublist {g' : Inst} (h : g'.watches.Sublist g.watches) :
    g'.live.Sublist g.live :=
  (h.filter _).map _

theorem live_pass (host : Host) : (g.pass wr host).live.Sublist g.live := by
  have hreap : (g.pass wr host).live =
      ((g.watches.map (scanned host)).filter fun w => !w.dropped).map Watch.entry := by
    rw [pass_eq]
    simp [Inst.live, reap, List.filter_filter]
  rw [hreap]
  exact live_scanned_sublist host g.watches

theorem rmWatch_sublist (wd : Int) : (g.rmWatch wr wd).1.watches.Sublist g.watches := by
  rw [rmWatch_eq]
  split_ifs
  · exact List.eraseP_sublist
  · exact .refl _

/-! ## The call, case by case -/

/-- The entry set up for a new watch, after its first listing. -/
def newWatch (ls : Listing) (wd : Int) (path : Name) (mask : Mask) (st : Stat) : Watch :=
  let w : Watch := ⟨wd, path, mask, st.isdir, false, [], st⟩
  if st.isdir then { dirScanned ls { w with mask := 0#32 } with mask := mask } else w

@[simp] theorem newWatch_entry (ls : Listing) (wd : Int) (path : Name) (mask : Mask) (st : Stat) :
    (newWatch ls wd path mask st).entry = (wd, path, mask) := by
  unfold newWatch dirScanned
  split_ifs
  · split <;> rfl
  · rfl

theorem newWatch_dropped (ls : Listing) (wd : Int) (path : Name) (mask : Mask) (st : Stat) :
    (newWatch ls wd path mask st).dropped = true ↔ st.isdir = true ∧ ls = .gone := by
  unfold newWatch dirScanned
  split_ifs with hdir
  · cases ls <;> simp [hdir]
  · simp [hdir]

variable {ls : Listing} {res : Resources} {path : Name} {mask : Mask} {st : Stat}

theorem addWatch_found {w : Watch} (hfind : g.watches.find? (liveAt path) = some w)
    (hcreate : has mask inMaskCreate = false) :
    ∃ l₁ l₂, g.watches = l₁ ++ w :: l₂ ∧ g.addWatch wr ls res path mask st =
      ({ g with watches := l₁ ++ remask mask w :: l₂ }, .ok w.wd) := by
  obtain ⟨l₁, l₂, hsplit, hmodify⟩ := modify_findIdx hfind (remask mask)
  refine ⟨l₁, l₂, hsplit, ?_⟩
  simp only [Inst.addWatch, hfind, hcreate, Bool.false_eq_true, if_false, hmodify]

theorem addWatch_exists {w : Watch} (hfind : g.watches.find? (liveAt path) = some w)
    (hcreate : has mask inMaskCreate = true) :
    g.addWatch wr ls res path mask st = (g, .error .eexist) := by
  simp only [Inst.addWatch, hfind, hcreate, if_true]

/-- Out of room, or of memory: at most the counter moves. -/
theorem addWatch_refused (hfind : g.watches.find? (liveAt path) = none)
    (hno : ¬ (g.watches.length < maxWatches ∧ res.grow = true ∧ res.dup = true)) :
    ∃ e, g.addWatch wr ls res path mask st = (g, .error e) ∨
      g.addWatch wr ls res path mask st = ({ g with nextWd := incr g.nextWd }, .error e) := by
  simp only [Inst.addWatch, hfind]
  by_cases hlen : g.watches.length ≥ maxWatches
  · exact ⟨_, .inl (if_pos hlen)⟩
  · rw [if_neg hlen]
    cases hgrow : res.grow with
    | false => exact ⟨_, .inl (if_pos rfl)⟩
    | true =>
      rw [if_neg (by decide)]
      cases hdup : res.dup with
      | false => exact ⟨_, .inr (if_pos rfl)⟩
      | true => exact absurd ⟨by omega, hgrow, hdup⟩ hno

/-- Otherwise the new watch is on the list, whether or not the thread could be started. -/
theorem addWatch_new (hlive : g.dead = false) (hfind : g.watches.find? (liveAt path) = none)
    (hlen : g.watches.length < maxWatches) (hgrow : res.grow = true) (hdup : res.dup = true) :
    g.addWatch wr ls res path mask st =
      ({ g with
          nextWd := incr g.nextWd
          watches := g.watches ++ [newWatch ls g.nextWd path mask st]
          scanning := g.scanning || res.spawn },
        if g.scanning = true ∨ res.spawn = true then .ok g.nextWd else .error .eagain) := by
  have hwd : (newWatch ls g.nextWd path mask st).wd = g.nextWd :=
    congrArg Prod.fst (newWatch_entry ..)
  have hfirst : firstScan wr ls g path mask st =
      ({ g with nextWd := incr g.nextWd }, newWatch ls g.nextWd path mask st) := firstScan_eq ..
  simp only [Inst.addWatch, hfind, hgrow, hdup, hfirst, hwd, Bool.true_eq_false, if_false,
    Nat.not_le.mpr hlen, hlive, and_true]
  cases hscan : g.scanning with
  | true => simp
  | false => cases hspawn : res.spawn <;> simp

/-! ## Over a life -/

theorem not_mem_live_of_find (hfind : g.watches.find? (liveAt path) = none) (v : Int) (m : Mask) :
    (v, path, m) ∉ g.live := by
  intro hmem
  obtain ⟨w, hw, hentry⟩ := List.mem_map.mp hmem
  obtain ⟨hw, hkeep⟩ := List.mem_filter.mp hw
  have hnone := List.find?_eq_none.mp hfind w hw
  have hpath : w.path = path := congrArg (fun e => e.2.1) hentry
  simp only [liveAt, Bool.and_eq_true, decide_eq_true_eq, not_and] at hnone
  exact hnone hkeep hpath

/-- Re-masking leaves the entries where they stand. -/
theorem live_remask {l₁ l₂ : List Watch} {w : Watch} (hkeep : w.dropped = false) :
    ∃ a b, ((l₁ ++ w :: l₂).filter fun w => !w.dropped).map Watch.entry = a ++ w.entry :: b ∧
      ((l₁ ++ remask mask w :: l₂).filter fun w => !w.dropped).map Watch.entry =
        a ++ (w.wd, w.path, newMask mask w.mask) :: b := by
  refine ⟨(l₁.filter fun w => !w.dropped).map Watch.entry,
    (l₂.filter fun w => !w.dropped).map Watch.entry, ?_, ?_⟩
  · simp [hkeep]
  · simp [hkeep, remask, Watch.entry, newMask]

theorem Inst.Regular.fresh (rfd wfd : Int) (pipe : Nat) : (fresh rfd wfd pipe).Regular [] where
  listed := by simp [Inst.fresh]
  below := by simp
  positive := Int.one_pos
  paths := List.nodup_nil

/-- An operation that adds nothing. -/
theorem Inst.Regular.shrink {g' : Inst} {used : List Int} (h : g.Regular used)
    (hlisted : ∀ w ∈ g'.watches, ∃ v ∈ g.watches, v.wd = w.wd) (hnext : g'.nextWd = g.nextWd)
    (hlive : (g'.live.map fun e => e.2.1).Sublist (g.live.map fun e => e.2.1)) :
    g'.Regular (g'.watches.map Watch.wd ++ used) where
  listed w hw := by
    obtain ⟨v, hv, hwd⟩ := hlisted w hw
    rw [← hwd, hnext]
    exact h.listed v hv
  below wd hwd := by
    rw [hnext]
    rcases List.mem_append.mp hwd with hwd | hwd
    · obtain ⟨w, hw, rfl⟩ := List.mem_map.mp hwd
      obtain ⟨v, hv, hwd⟩ := hlisted w hw
      rw [← hwd]
      exact h.listed v hv
    · exact h.below wd hwd
  positive := by
    rw [hnext]
    exact h.positive
  paths := hlive.nodup h.paths

/-- The counter moves on, and at most a watch with the descriptor it stood at is added, on a path
that is not watched. -/
theorem Inst.Regular.grow {g' : Inst} {used : List Int} (h : g.Regular used)
    (hroom : g.nextWd < 2 ^ 31 - 1) (hnext : g'.nextWd = incr g.nextWd)
    (hlisted : ∀ w ∈ g'.watches, w ∈ g.watches ∨ w.wd = g.nextWd)
    (hpaths : (g'.live.map fun e => e.2.1).Nodup) :
    g'.Regular (g'.watches.map Watch.wd ++ used) := by
  have hincr := incr_eq h.positive hroom
  have hpos := h.positive
  have hlist : ∀ w ∈ g'.watches, w.wd < g'.nextWd := by
    intro w hw
    rcases hlisted w hw with hold | hnew
    · have := h.listed w hold
      omega
    · omega
  refine ⟨hlist, fun wd hwd => ?_, by omega, hpaths⟩
  rcases List.mem_append.mp hwd with hwd | hwd
  · obtain ⟨w, hw, rfl⟩ := List.mem_map.mp hwd
    exact hlist w hw
  · have := h.below wd hwd
    omega

theorem live_append (w : Watch) :
    Inst.live { g with watches := g.watches ++ [w] } =
      g.live ++ if w.dropped then [] else [w.entry] := by
  cases hdropped : w.dropped <;> simp [Inst.live, hdropped]

theorem found_live {w : Watch} (hfind : g.watches.find? (liveAt path) = some w) :
    w ∈ g.watches ∧ w.dropped = false ∧ w.path = path := by
  have hp := List.find?_some hfind
  simp only [liveAt, Bool.and_eq_true, Bool.not_eq_true', decide_eq_true_eq] at hp
  exact ⟨List.mem_of_find?_eq_some hfind, hp.1, hp.2⟩

theorem Inst.Regular.addWatch {used : List Int} (h : g.Regular used) (hlive : g.dead = false)
    (hroom : g.nextWd < 2 ^ 31 - 1) :
    (g.addWatch wr ls res path mask st).1.Regular
      ((g.addWatch wr ls res path mask st).1.watches.map Watch.wd ++ used) := by
  cases hfind : g.watches.find? (liveAt path) with
  | some w =>
    cases hcreate : has mask inMaskCreate with
    | true =>
      rw [addWatch_exists hfind hcreate]
      exact h.shrink (fun w hw => ⟨w, hw, rfl⟩) rfl (.refl _)
    | false =>
      obtain ⟨l₁, l₂, hsplit, heq⟩ := @addWatch_found wr g ls res path mask st w hfind hcreate
      obtain ⟨a, b, hbefore, hafter⟩ := @live_remask mask l₁ l₂ w (found_live hfind).2.1
      rw [heq]
      refine h.shrink (fun u hu => ?_) rfl ?_
      · rw [hsplit]
        rcases List.mem_append.mp hu with hu | hu
        · exact ⟨u, by simp [hu], rfl⟩
        · rcases List.mem_cons.mp hu with rfl | hu
          · exact ⟨w, by simp, rfl⟩
          · exact ⟨u, by simp [hu], rfl⟩
      · unfold Inst.live
        rw [hsplit, hbefore, hafter, List.map_append, List.map_append]
        exact .refl _
  | none =>
    by_cases hnew : g.watches.length < maxWatches ∧ res.grow = true ∧ res.dup = true
    · obtain ⟨hlen, hgrow, hdup⟩ := hnew
      rw [addWatch_new hlive hfind hlen hgrow hdup]
      refine h.grow hroom rfl (fun w hw => ?_) ?_
      · rcases List.mem_append.mp hw with hw | hw
        · exact .inl hw
        · rw [List.mem_singleton.mp hw]
          exact .inr (congrArg Prod.fst (newWatch_entry ..))
      · have happend := @live_append g (newWatch ls g.nextWd path mask st)
        unfold Inst.live at happend ⊢
        rw [happend, List.map_append]
        refine List.nodup_append.mpr ⟨h.paths, ?_, ?_⟩
        · split_ifs
          · exact List.nodup_nil
          · exact List.nodup_singleton _
        · rintro p hp q hq rfl
          split_ifs at hq
          · cases hq
          · obtain ⟨⟨v, p', m⟩, he, hpath⟩ := List.mem_map.mp hp
            rw [newWatch_entry] at hq
            have hsame : p = path := List.mem_singleton.mp hq
            have hp' : p' = path := hpath.trans hsame
            rw [hp'] at he
            exact not_mem_live_of_find hfind v m he
    · obtain ⟨e, heq | heq⟩ := @addWatch_refused wr g ls res path mask st hfind hnew
      · rw [heq]
        exact h.shrink (fun w hw => ⟨w, hw, rfl⟩) rfl (.refl _)
      · rw [heq]
        exact h.grow hroom rfl (fun w hw => .inl hw) h.paths

theorem Inst.Regular.apply {used : List Int} {a : Op} (h : g.Regular used) (hlive : g.dead = false)
    (hroom : Roomy g a) :
    (g.apply wr a).Regular ((g.apply wr a).watches.map Watch.wd ++ used) := by
  cases a with
  | pass host =>
    refine h.shrink (fun w hw => ?_) (Inst.Emitted.pass host g).nextWd ((live_pass host).map _)
    rw [Inst.apply, pass_eq] at hw
    obtain ⟨v, hv, rfl⟩ := List.mem_map.mp (List.mem_filter.mp hw).1
    exact ⟨v, hv, (congrArg Prod.fst (scanned_entry host v)).symm⟩
  | addWatch ls res path mask st => exact h.addWatch hlive hroom
  | rmWatch wd =>
    have hsub := @rmWatch_sublist wr g wd
    refine h.shrink (fun w hw => ⟨w, hsub.subset hw, rfl⟩) (Inst.Emitted.rmWatch g wd).nextWd ?_
    exact (Inst.live_sublist hsub).map _

/-- Through any life whose counter never runs out. -/
theorem regular_of_life {rfd wfd : Int} {pipe : Nat} {used : List Int}
    (h : (life wr (.fresh rfd wfd pipe)).Run Roomy g used) : g.Regular used := by
  refine Machine.Run.invariant (P := Inst.Regular) (.fresh rfd wfd pipe) ?_ h
  intro g used a g' out hg hroom hstep
  obtain ⟨henabled, rfl, rfl⟩ := life_step hstep
  exact hg.apply (Inst.enabled_live henabled) hroom

end

/-! ## All or nothing -/

theorem put_live {s : State} {i : Fin maxInstances} {g g' : Inst} (hg : s.slots i = some g)
    (hsame : g'.live = g.live) (j : Fin maxInstances) :
    ((s.put i g').slots j).map Inst.live = (s.slots j).map Inst.live := by
  simp only [State.put, Function.update_apply]
  split_ifs with hij
  · rw [hij, hg]
    exact congrArg some hsame
  · rfl

theorem put_other {s : State} {i j : Fin maxInstances} {g' : Inst} (hij : j ≠ i) :
    ((s.put i g').slots j).map Inst.live = (s.slots j).map Inst.live := by
  simp [State.put, hij]

theorem put_self {s : State} {i : Fin maxInstances} {g' : Inst} :
    ((s.put i g').slots i).map Inst.live = some g'.live := by
  simp [State.put]

/-- On a watched path there is one watch. -/
theorem Inst.Regular.unique {g : Inst} {used : List Int} (h : g.Regular used) {path : Name}
    {v v' : Int} {m m' : Mask} (hv : (v, path, m) ∈ g.live) (hv' : (v', path, m') ∈ g.live) :
    v = v' ∧ m = m' := by
  have hsame := List.inj_on_of_nodup_map h.paths hv hv' rfl
  simp only [Prod.mk.injEq, true_and] at hsame
  exact hsame

section

variable {s : State} {used : List Int} {fd : Int} {path : Option Name} {mask : Mask} {host : Host}
  {room : Nat → Room} {res : Resources}

/-- Nothing changes but what the counter stands at. -/
theorem atomic_of_error {e : Err} {r : Outcome Int} (hresult : r.result = .error e)
    (hsame : ∀ i, (r.state.slots i).map Inst.live = (s.slots i).map Inst.live) :
    Atomic s used fd path mask r where
  fails _ _ := hsame
  adds wd hok := by
    rw [hresult] at hok
    cases hok

theorem target_path {i : Fin maxInstances} {g : Inst} {p : Name} {st : Stat}
    (h : s.target fd path mask host = .ok (i, g, p, st)) : path = some p := by
  unfold State.target at h
  cases path with
  | none => cases h
  | some q =>
    simp only at h
    split_ifs at h
    split at h
    · cases h
    · cases h
    · split_ifs at h
      split at h
      · cases h
      · cases h
        rfl

variable {i : Fin maxInstances} {g : Inst} {p : Name} {st : Stat}

/-- Past the checks, the call is what it does to the instance it found. -/
theorem atomic_found_iff (htarget : s.target fd path mask host = .ok (i, g, p, st)) {r : Inst × _}
    (hr : g.addWatch (s.writes g room) (host.opendir p) res p mask st = r) :
    Atomic s used fd path mask (s.emuAddWatch fd path mask host room res) ↔
      (∀ e, r.2 = .error e → r.1.live = g.live) ∧
        ∀ wd, r.2 = .ok wd → Adds used p mask wd g.live r.1.live := by
  have hfound := (target_ok htarget).1
  have hslot := (instByFd_some hfound).1
  have hstate : (s.emuAddWatch fd path mask host room res).state = s.put i r.1 := by
    simp only [State.emuAddWatch, htarget, hr]
  have hresult : (s.emuAddWatch fd path mask host room res).result = r.2 := by
    simp only [State.emuAddWatch, htarget, hr]
  constructor
  · rintro ⟨hfails, hadds⟩
    rw [hresult] at hfails hadds
    rw [hstate] at hfails hadds
    refine ⟨fun e he => ?_, fun wd hwd => ?_⟩
    · have hsame := hfails e he i
      rw [put_self, hslot] at hsame
      exact Option.some.inj hsame
    · obtain ⟨i', g', p', after, hfound', hpath, _, hafter, hadd⟩ := hadds wd hwd
      rw [hfound] at hfound'
      cases hfound'
      rw [target_path htarget] at hpath
      cases hpath
      rw [put_self] at hafter
      cases hafter
      exact hadd
  · rintro ⟨hfails, hadds⟩
    constructor
    · rw [hresult, hstate]
      intro e he
      exact put_live hslot (hfails e he)
    · rw [hresult, hstate]
      intro wd hwd
      exact ⟨i, g, p, _, hfound, target_path htarget, fun j hj => put_other hj, put_self,
        hadds wd hwd⟩

/-- A path that is watched: its one watch keeps its descriptor. -/
theorem adds_found {wr : Nat → Written} {ls : Listing} {w : Watch} (hg : g.Regular used)
    (hfind : g.watches.find? (liveAt p) = some w) (hcreate : has mask inMaskCreate = false) :
    (g.addWatch wr ls res p mask st).2 = .ok w.wd ∧
      Adds used p mask w.wd g.live (g.addWatch wr ls res p mask st).1.live := by
  obtain ⟨l₁, l₂, hsplit, heq⟩ := @addWatch_found wr g ls res p mask st w hfind hcreate
  obtain ⟨hmem, hkeep, hpath⟩ := found_live hfind
  obtain ⟨a, b, hbefore, hafter⟩ := @live_remask mask l₁ l₂ w hkeep
  have hlive : g.live = a ++ (w.wd, p, w.mask) :: b := by
    unfold Inst.live
    rw [hsplit, hbefore, Watch.entry, hpath]
  have hentry : (w.wd, p, w.mask) ∈ g.live := by
    rw [hlive]
    simp
  rw [heq]
  refine ⟨rfl, fun v m hv => ?_, fun hnone => absurd hentry (hnone _ _)⟩
  obtain ⟨rfl, rfl⟩ := hg.unique hentry hv
  refine ⟨rfl, a, b, hlive, ?_⟩
  rw [← hpath]
  exact hafter

/-- A new path: the watch is there unless the first listing marked it. -/
theorem live_new {wr : Nat → Written} {ls : Listing} (hlive : g.dead = false)
    (hfind : g.watches.find? (liveAt p) = none) (hlen : g.watches.length < maxWatches)
    (hgrow : res.grow = true) (hdup : res.dup = true) :
    (g.addWatch wr ls res p mask st).1.live =
      g.live ++ if st.isdir = true ∧ ls = .gone then [] else [(g.nextWd, p, mask)] := by
  rw [addWatch_new hlive hfind hlen hgrow hdup]
  have happend := @live_append g (newWatch ls g.nextWd p mask st)
  simp only [newWatch_dropped, newWatch_entry] at happend
  exact happend

/-- Where a new descriptor is drawn. -/
theorem atomic_new_iff (hg : g.Regular used)
    (htarget : s.target fd path mask host = .ok (i, g, p, st))
    (hfind : g.watches.find? (liveAt p) = none) (hlen : g.watches.length < maxWatches)
    (hgrow : res.grow = true) (hdup : res.dup = true) :
    Atomic s used fd path mask (s.emuAddWatch fd path mask host room res) ↔
      ((g.scanning = true ∨ res.spawn = true) ↔ ¬ (st.isdir = true ∧ host.opendir p = .gone)) := by
  have hlive := (instByFd_some (target_ok htarget).1).2.1
  have hafter := @live_new mask res g p st (s.writes g room) (host.opendir p) hlive hfind hlen hgrow
    hdup
  have hresult := congrArg Prod.snd (@addWatch_new (s.writes g room) g (host.opendir p) res p mask st
    hlive hfind hlen hgrow hdup)
  have hfresh : g.nextWd ∉ used := fun hmem => lt_irrefl _ (hg.below _ hmem)
  have hnone := not_mem_live_of_find hfind
  rw [atomic_found_iff htarget rfl, hresult, hafter]
  by_cases hthread : g.scanning = true ∨ res.spawn = true
  · by_cases hmarked : st.isdir = true ∧ host.opendir p = .gone
    · rw [if_pos hthread, if_pos hmarked, List.append_nil]
      refine iff_of_false ?_ fun hiff => hiff.mp hthread hmarked
      rintro ⟨_, hadds⟩
      have hlength := congrArg List.length ((hadds g.nextWd rfl).new hnone).2
      simp at hlength
    · rw [if_pos hthread, if_neg hmarked]
      refine iff_of_true ⟨fun e he => (by cases he), ?_⟩ (iff_of_true hthread hmarked)
      rintro wd ⟨⟩
      exact ⟨fun v m hv => absurd hv (hnone v m), fun _ => ⟨hfresh, rfl⟩⟩
  · by_cases hmarked : st.isdir = true ∧ host.opendir p = .gone
    · rw [if_neg hthread, if_pos hmarked, List.append_nil]
      exact iff_of_true ⟨fun _ _ => rfl, fun wd hwd => by cases hwd⟩
        (iff_of_false hthread fun hgone => hgone hmarked)
    · rw [if_neg hthread, if_neg hmarked]
      refine iff_of_false ?_ fun hiff => hthread (hiff.mpr hmarked)
      rintro ⟨hfails, _⟩
      have hlength := congrArg List.length (hfails _ rfl)
      simp at hlength

/-- For an instance whose counter has never run out, a call is all or nothing exactly when the
watch it sets up is backed. -/
theorem add_watch_atomic_iff
    (hused : ∀ i g, s.instByFd fd = some (i, g) →
      ∃ wr, (life wr (.fresh g.rfd g.wfd g.pipe)).Run Roomy g used) :
    Atomic s used fd path mask (s.emuAddWatch fd path mask host room res) ↔
      Backed s fd path mask host res := by
  cases htarget : s.target fd path mask host with
  | error e =>
    have hstate : s.emuAddWatch fd path mask host room res = ⟨s, .error e, []⟩ := by
      simp only [State.emuAddWatch, htarget]
    rw [hstate]
    refine iff_of_true (atomic_of_error rfl fun _ => rfl) ?_
    intro i g p st h
    rw [htarget] at h
    cases h
  | ok r =>
    obtain ⟨i, g, p, st⟩ := r
    obtain ⟨wr, hlife⟩ := hused i g (target_ok htarget).1
    have hg := regular_of_life hlife
    cases hfind : g.watches.find? (liveAt p) with
    | some w =>
      refine iff_of_true ?_ ?_
      · rw [atomic_found_iff htarget rfl]
        cases hcreate : has mask inMaskCreate with
        | true =>
          rw [addWatch_exists hfind hcreate]
          exact ⟨fun _ _ => rfl, fun wd hwd => by cases hwd⟩
        | false =>
          obtain ⟨hok, hadds⟩ := @adds_found used mask res g p st (s.writes g room) (host.opendir p)
            w hg hfind hcreate
          rw [hok]
          refine ⟨fun e he => (by cases he), ?_⟩
          rintro wd ⟨⟩
          exact hadds
      · intro i' g' p' st' h hnone
        rw [htarget] at h
        cases h
        rw [hfind] at hnone
        cases hnone
    | none =>
      by_cases hnew : g.watches.length < maxWatches ∧ res.grow = true ∧ res.dup = true
      · obtain ⟨hlen, hgrow, hdup⟩ := hnew
        rw [atomic_new_iff hg htarget hfind hlen hgrow hdup]
        constructor
        · intro hthread i' g' p' st' h _ _ _ _
          rw [htarget] at h
          cases h
          exact hthread
        · intro hbacked
          exact hbacked i g p st htarget hfind hlen hgrow hdup
      · refine iff_of_true ?_ ?_
        · rw [atomic_found_iff htarget rfl]
          obtain ⟨e, heq | heq⟩ := @addWatch_refused (s.writes g room) g (host.opendir p) res p mask st
            hfind hnew
          · rw [heq]
            exact ⟨fun _ _ => rfl, fun wd hwd => by cases hwd⟩
          · rw [heq]
            exact ⟨fun _ _ => rfl, fun wd hwd => by cases hwd⟩
        · intro i' g' p' st' h _ hlen hgrow hdup
          rw [htarget] at h
          cases h
          exact absurd ⟨hlen, hgrow, hdup⟩ hnew

end

/-- No instance of the table runs out of descriptors. -/
def RoomyTable (s : State) : Label → Prop
  | .addWatch fd path mask host _ _ => ∀ i g p st,
      s.target fd path mask host = .ok (i, g, p, st) → g.nextWd < 2 ^ 31 - 1
  | _ => True

/-- Every instance of the table has lived as the theorem asks. -/
theorem roomy_life {s : State} {log : List Obs} (h : machine.Run RoomyTable s log)
    {i : Fin maxInstances} {g : Inst} (hg : s.slots i = some g) :
    ∃ wr used, (life wr (.fresh g.rfd g.wfd g.pipe)).Run Roomy g used := by
  refine exists_life ?_ h hg
  intro s l i g a wr hl hdoes
  cases hdoes with
  | pass _ _ => trivial
  | addWatch htarget => exact hl _ _ _ _ htarget
  | rmWatch _ => trivial

/-! ## A thread that cannot be started -/

/-- The table with one instance, as `inotify_init` leaves it. -/
def oneInstance : State := State.init.install slot0 3 4

def aRegularFile : Stat := ⟨1, 0, 0, 0, 0, false⟩

def someFolder : Stat := ⟨1, 0, 0, 0, 0, true⟩

def fileThere : Host := ⟨fun _ _ => .found aRegularFile, fun _ => .error⟩

/-- There for `stat`, gone for `opendir`. -/
def folderGone : Host := ⟨fun _ _ => .found someFolder, fun _ => .gone⟩

theorem oneInstance_found : oneInstance.instByFd 3 = some (⟨0, by decide⟩, .fresh 3 4 0) := rfl

theorem oneInstance_atomic :
    Atomic oneInstance [] 3 (some [97]) inModify
        (oneInstance.emuAddWatch 3 (some [97]) inModify fileThere (fun _ => .ok) ⟨true, true, true⟩) ↔
      Backed oneInstance 3 (some [97]) inModify fileThere ⟨true, true, true⟩ := by
  refine add_watch_atomic_iff fun i g hfound => ⟨fun _ => .failed, ?_⟩
  rw [oneInstance_found] at hfound
  cases hfound
  exact .start

/-- Without a thread the call fails and the watch is there; with the directory gone before the
first listing the call succeeds and it is not. -/
theorem oneInstance_not_atomic :
    ¬ Atomic oneInstance [] 3 (some [97]) inModify
        (oneInstance.emuAddWatch 3 (some [97]) inModify fileThere (fun _ => .ok) ⟨true, true, false⟩) ∧
      ¬ Atomic oneInstance [] 3 (some [97]) inModify
        (oneInstance.emuAddWatch 3 (some [97]) inModify folderGone (fun _ => .ok)
          ⟨true, true, true⟩) := by
  have hregular := Inst.Regular.fresh 3 4 0
  have htarget : oneInstance.target 3 (some [97]) inModify fileThere =
      .ok (⟨0, by decide⟩, .fresh 3 4 0, [97], aRegularFile) := rfl
  have htarget' : oneInstance.target 3 (some [97]) inModify folderGone =
      .ok (⟨0, by decide⟩, .fresh 3 4 0, [97], someFolder) := rfl
  have hlen : (Inst.fresh 3 4 0).watches.length < maxWatches := by decide
  constructor
  · rw [atomic_new_iff hregular htarget rfl hlen rfl rfl]
    simp [Inst.fresh, aRegularFile]
  · rw [atomic_new_iff hregular htarget' rfl hlen rfl rfl]
    simp [folderGone, someFolder]

end ApeShim.Inotify
