import ApeShim.Inotify.Reclaim

/-!
How a watch ends. `emu_rm_watch` reports IN_IGNORED and takes the watch out; a
scan that finds the target gone reports it and marks the watch, and the same pass
reaps what it marked. The first listing of a new watch runs the same scan with the
mask at 0, where the report is held back and the mark is not.
-/

namespace ApeShim.Inotify
open Flags Trace

/-! ## Counting the reports -/

def isIgnored (wd : Int) (e : Event) : Bool := e.wd = wd && e.mask = inIgnored

/-- The IN_IGNORED records given to the pipe for a descriptor. -/
def Inst.ignored (g : Inst) (wd : Int) : Nat := g.sent.countP (isIgnored wd)

def callIgnored (c : Mask × Name) : Bool := c.1 = inIgnored

theorem emit_live {wr : Nat → Written} {g : Inst} {wd : Int} {mask : Mask} {name : Name}
    (h : (g.emit wr wd mask name).dead = false) :
    (g.emit wr wd mask name).sent = record wd mask name :: g.sent := by
  have hd := (Inst.Emitted.emit g wd mask name).live h
  simp only [Inst.emit, hd, Bool.false_eq_true, if_false] at h ⊢
  split at h
  · rfl
  · rfl
  · rfl
  · cases h

theorem emit_ignored {wr : Nat → Written} {g : Inst} {wd : Int} {mask : Mask} {name : Name}
    (h : (g.emit wr wd mask name).dead = false) (wd' : Int) :
    (g.emit wr wd mask name).ignored wd' =
      g.ignored wd' + if wd = wd' ∧ mask = inIgnored then 1 else 0 := by
  simp only [Inst.ignored, emit_live h, List.countP_cons, isIgnored, record_wd, record_mask,
    Bool.and_eq_true, decide_eq_true_eq]

theorem emitAll_ignored {wr : Nat → Written} {wd : Int} (calls : List (Mask × Name)) (g : Inst)
    (h : (g.emitAll wr wd calls).dead = false) (wd' : Int) :
    (g.emitAll wr wd calls).ignored wd' =
      g.ignored wd' + if wd = wd' then calls.countP callIgnored else 0 := by
  induction calls generalizing g with
  | nil => simp [Inst.emitAll]
  | cons c calls ih =>
    have hstep : g.emitAll wr wd (c :: calls) = (g.emit wr wd c.1 c.2).emitAll wr wd calls := rfl
    rw [hstep] at h ⊢
    have hlive := (Inst.Emitted.emitAll wd calls _).live h
    rw [ih _ h, emit_ignored hlive, List.countP_cons]
    by_cases hw : wd = wd'
    · simp only [hw, true_and, if_true, callIgnored, decide_eq_true_eq]
      omega
    · simp [hw]

/-! ## What the scans report -/

theorem orIsdir_ne_ignored {m : Mask} {b : Bool} (hm : m = inModify ∨ m = inAttrib ∨ m = inCreate ∨
    m = inDelete) : orIsdir m b ≠ inIgnored := by
  rcases hm with rfl | rfl | rfl | rfl
  all_goals cases b <;> decide

theorem countP_ite_singleton {α : Type} (p : α → Bool) (c : Prop) [Decidable c] (x : α)
    (h : p x = false) : (if c then [x] else []).countP p = 0 := by
  split
  · simp [h]
  · rfl

theorem gone_ignored (mask : Mask) (k : Kid) : (gone mask k).countP callIgnored = 0 :=
  countP_ite_singleton _ _ _ (by simp [callIgnored, orIsdir_ne_ignored])

theorem appeared_ignored (mask : Mask) (k : Kid) : (appeared mask k).countP callIgnored = 0 :=
  countP_ite_singleton _ _ _ (by simp [callIgnored, orIsdir_ne_ignored])

theorem kept_ignored (mask : Mask) (o p : Kid) : (kept mask o p).countP callIgnored = 0 := by
  unfold kept
  split
  all_goals
    rw [List.countP_append, countP_ite_singleton _ _ _ (by simp [callIgnored, orIsdir_ne_ignored]),
      countP_ite_singleton _ _ _ (by simp [callIgnored, orIsdir_ne_ignored])]

theorem diffLoop_ignored (mask : Mask) (fuel : Nat) (old now : List Kid) :
    (diffLoop mask fuel old now).countP callIgnored = 0 := by
  induction fuel generalizing old now with
  | zero => rfl
  | succ fuel ih =>
    cases old with
    | nil =>
      cases now with
      | nil => rfl
      | cons p now => simp only [diffLoop, List.countP_append, appeared_ignored, ih]
    | cons o old =>
      cases now with
      | nil => simp only [diffLoop, List.countP_append, gone_ignored, ih]
      | cons p now =>
        simp only [diffLoop]
        split
        · rw [List.countP_append, gone_ignored, ih]
        · rw [List.countP_append, appeared_ignored, ih]
        · rw [List.countP_append, kept_ignored, ih]

theorem selfGone_ignored (mask : Mask) : (selfGone mask).countP callIgnored = 0 :=
  countP_ite_singleton _ _ _ (by decide)

theorem selfChanged_ignored (mask : Mask) (o p : Stat) :
    (selfChanged mask o p).countP callIgnored = 0 := by
  unfold selfChanged
  split
  · exact countP_ite_singleton _ _ _ (by decide)
  · rw [List.countP_append, countP_ite_singleton _ _ _ (by decide),
      countP_ite_singleton _ _ _ (by decide)]

/-- One scan of a watch that is not marked, with its mask set: it reports
IN_IGNORED once if it marks the watch, and not at all otherwise. -/
theorem scanWatch_spec {wr : Nat → Written} {host : Host} {g : Inst} {w : Watch}
    (hd : w.dropped = false) (hm : w.mask ≠ 0#32)
    (hlive : (scanWatch wr host g w).1.dead = false) (wd : Int) :
    (scanWatch wr host g w).1.ignored wd =
      g.ignored wd + if w.wd = wd ∧ (scanWatch wr host g w).2.dropped = true then 1 else 0 := by
  simp only [scanWatch, hd, Bool.false_eq_true, if_false] at hlive ⊢
  split at hlive
  · rename_i hdir
    simp only [hdir, if_true]
    unfold scanDir at hlive ⊢
    split at hlive
    · simp only at hlive ⊢
      rw [emitAll_ignored _ _ hlive, List.countP_append, selfGone_ignored]
      simp [hm, callIgnored]
    · simp [hd]
    · simp only at hlive ⊢
      rw [emitAll_ignored _ _ hlive, diff, diffLoop_ignored]
      simp [hd]
  · rename_i hdir
    simp only [hdir, Bool.false_eq_true, if_false]
    unfold scanFile at hlive ⊢
    split at hlive
    · simp only at hlive ⊢
      rw [emitAll_ignored _ _ hlive, List.countP_append, selfGone_ignored]
      simp [callIgnored]
    · simp [hd]
    · simp only at hlive ⊢
      rw [emitAll_ignored _ _ hlive, selfChanged_ignored]
      simp [hd]

/-- A scan changes no watch's descriptor, path or mask. -/
theorem scanWatch_keeps (wr : Nat → Written) (host : Host) (g : Inst) (w : Watch) :
    (scanWatch wr host g w).2.wd = w.wd ∧ (scanWatch wr host g w).2.mask = w.mask := by
  unfold scanWatch scanDir scanFile
  split
  · exact ⟨rfl, rfl⟩
  · split
    · split <;> exact ⟨rfl, rfl⟩
    · split <;> exact ⟨rfl, rfl⟩

theorem scanAll_keeps (wr : Nat → Written) (host : Host) (ws : List Watch) (g : Inst) :
    (scanAll wr host g ws).2.map (fun w => (w.wd, w.mask)) = ws.map fun w => (w.wd, w.mask) := by
  induction ws generalizing g with
  | nil => rfl
  | cons w ws ih =>
    obtain ⟨h₁, h₂⟩ := scanWatch_keeps wr host g w
    simp only [scanAll, List.map_cons, h₁, h₂, ih]

def droppedAs (wd : Int) (w : Watch) : Bool := w.wd = wd && w.dropped

/-- Over a whole list, a descriptor gets one report for each of its watches the
scan marks. -/
theorem scanAll_spec {wr : Nat → Written} {host : Host} (ws : List Watch) (g : Inst)
    (hws : ∀ w ∈ ws, w.dropped = false ∧ w.mask ≠ 0#32)
    (hlive : (scanAll wr host g ws).1.dead = false) (wd : Int) :
    (scanAll wr host g ws).1.ignored wd =
      g.ignored wd + (scanAll wr host g ws).2.countP (droppedAs wd) := by
  induction ws generalizing g with
  | nil => simp [scanAll]
  | cons w ws ih =>
    simp only [scanAll] at hlive ⊢
    have hlive₁ := (Inst.Emitted.scanAll host ws _).live hlive
    have hw := hws w (by simp)
    rw [ih _ (fun v hv => hws v (by simp [hv])) hlive, scanWatch_spec hw.1 hw.2 hlive₁,
      List.countP_cons]
    simp only [droppedAs, (scanWatch_keeps wr host g w).1, Bool.and_eq_true, decide_eq_true_eq]
    omega

/-! ## The invariant of one instance -/

/-- What holds of the watch list between operations, dead or not. -/
structure Inst.Tidy (g : Inst) : Prop where
  unmarked : ∀ w ∈ g.watches, w.dropped = false
  masked : ∀ w ∈ g.watches, w.mask ≠ 0#32
  nodup : (g.watches.map Watch.wd).Nodup
  range : ∀ w ∈ g.watches, 0 < w.wd ∧ w.wd < g.nextWd
  next_pos : 0 < g.nextWd

/-- The reports of a live instance, against the descriptors it gave out. -/
structure Inst.Reported (g : Inst) (issued : Int → Prop) : Prop where
  listed : ∀ w ∈ g.watches, g.ignored w.wd = 0
  left : ∀ wd, issued wd → wd ∉ g.watches.map Watch.wd → g.ignored wd = 1
  future : ∀ wd, g.nextWd ≤ wd → g.ignored wd = 0

theorem mask_ne_zero {mask : Mask} (h : has mask inAllEvents = true) : mask ≠ 0#32 := by
  rintro rfl
  simp at h

/-! ### Scanning -/

theorem tellOverflow_ignored {wr : Nat → Written} {g : Inst}
    (hlive : (g.tellOverflow wr).dead = false) (wd : Int) :
    (g.tellOverflow wr).ignored wd = g.ignored wd := by
  unfold Inst.tellOverflow at hlive ⊢
  split
  · rename_i ho
    simp only [ho, if_true] at hlive
    rw [emit_ignored hlive]
    simp [Inst.ignored, show inQOverflow ≠ inIgnored by decide]
  · rfl

theorem mem_scanAll {wr : Nat → Written} {host : Host} {g : Inst} {ws : List Watch} {w : Watch}
    (h : w ∈ (scanAll wr host g ws).2) : ∃ v ∈ ws, v.wd = w.wd ∧ v.mask = w.mask := by
  have hm : (w.wd, w.mask) ∈ ws.map fun v => (v.wd, v.mask) := by
    rw [← scanAll_keeps wr host ws g]
    exact List.mem_map_of_mem h
  obtain ⟨v, hv, he⟩ := List.mem_map.mp hm
  simp only [Prod.mk.injEq] at he
  exact ⟨v, hv, he.1, he.2⟩

theorem scanAll_wds (wr : Nat → Written) (host : Host) (g : Inst) (ws : List Watch) :
    (scanAll wr host g ws).2.map Watch.wd = ws.map Watch.wd := by
  have := congrArg (List.map Prod.fst) (scanAll_keeps wr host ws g)
  simpa [List.map_map, Function.comp_def] using this

theorem Inst.Tidy.pass {wr : Nat → Written} {host : Host} {g : Inst} (t : g.Tidy) :
    (g.pass wr host).Tidy := by
  have hnext := (@Inst.Emitted.pass wr host g).nextWd
  constructor
  · intro w hw
    simpa using (List.mem_filter.mp hw).2
  · intro w hw
    obtain ⟨v, hv, -, hm⟩ := mem_scanAll (List.mem_filter.mp hw).1
    rw [← hm]
    exact t.masked v hv
  · have hsub : ((g.pass wr host).watches.map Watch.wd).Sublist (g.watches.map Watch.wd) := by
      rw [← scanAll_wds wr host (g.tellOverflow wr) g.watches]
      exact (List.filter_sublist).map _
    exact hsub.nodup t.nodup
  · intro w hw
    obtain ⟨v, hv, hwd, -⟩ := mem_scanAll (List.mem_filter.mp hw).1
    rw [← hwd, hnext]
    exact t.range v hv
  · rw [hnext]
    exact t.next_pos

theorem countP_droppedAs {ws : List Watch} {w : Watch} (hn : (ws.map Watch.wd).Nodup) (hw : w ∈ ws)
    (hd : w.dropped = true) : ws.countP (droppedAs w.wd) = 1 := by
  induction ws with
  | nil => cases hw
  | cons v ws ih =>
    rw [List.map_cons, List.nodup_cons] at hn
    rw [List.countP_cons]
    rcases List.mem_cons.mp hw with rfl | hw
    · have hrest : ws.countP (droppedAs w.wd) = 0 := by
        rw [List.countP_eq_zero]
        intro u hu hdu
        simp only [droppedAs, Bool.and_eq_true, decide_eq_true_eq] at hdu
        exact hn.1 (hdu.1 ▸ List.mem_map_of_mem hu)
      simp [hrest, droppedAs, hd]
    · have hne : v.wd ≠ w.wd := by
        intro he
        exact hn.1 (he ▸ List.mem_map_of_mem hw)
      simp [ih hn.2 hw, droppedAs, hne]

/-- A pass marks exactly the watches it reports, and reaps them. -/
theorem Inst.Reported.pass {wr : Nat → Written} {host : Host} {g : Inst} {issued : Int → Prop}
    (t : g.Tidy) (r : g.Reported issued) (hlive : (g.pass wr host).dead = false) :
    (g.pass wr host).Reported issued := by
  have hws : ∀ w ∈ g.watches, w.dropped = false ∧ w.mask ≠ 0#32 :=
    fun w hw => ⟨t.unmarked w hw, t.masked w hw⟩
  have hlive₀ : (g.tellOverflow wr).dead = false := (Inst.Emitted.scanAll host g.watches _).live hlive
  have hcount : ∀ wd, (g.pass wr host).ignored wd =
      g.ignored wd + (scanAll wr host (g.tellOverflow wr) g.watches).2.countP (droppedAs wd) := by
    intro wd
    rw [← tellOverflow_ignored hlive₀, ← scanAll_spec g.watches _ hws hlive]
    rfl
  have hwds := scanAll_wds wr host (g.tellOverflow wr) g.watches
  have hnodup : ((scanAll wr host (g.tellOverflow wr) g.watches).2.map Watch.wd).Nodup := by
    rw [hwds]
    exact t.nodup
  constructor
  · intro w hw
    obtain ⟨hmem, hkeep⟩ := List.mem_filter.mp hw
    obtain ⟨v, hv, hwd, -⟩ := mem_scanAll hmem
    rw [hcount, ← hwd, r.listed v hv, Nat.zero_add, List.countP_eq_zero]
    intro u hu hdu
    simp only [droppedAs, Bool.and_eq_true, decide_eq_true_eq] at hdu
    have := List.inj_on_of_nodup_map hnodup hu hmem (hdu.1.trans hwd)
    subst this
    simp [hdu.2] at hkeep
  · intro wd hi hnot
    rw [hcount]
    by_cases hmem : wd ∈ g.watches.map Watch.wd
    · rw [← hwds] at hmem
      obtain ⟨w, hw, rfl⟩ := List.mem_map.mp hmem
      have hdropped : w.dropped = true := by
        by_contra hk
        apply hnot
        exact List.mem_map_of_mem (List.mem_filter.mpr ⟨hw, by simpa using hk⟩)
      have hone := countP_droppedAs hnodup hw hdropped
      obtain ⟨v, hv, hwd, -⟩ := mem_scanAll hw
      rw [hone, ← hwd, r.listed v hv]
    · rw [r.left wd hi hmem]
      have hzero : (scanAll wr host (g.tellOverflow wr) g.watches).2.countP (droppedAs wd) = 0 := by
        rw [List.countP_eq_zero]
        intro u hu hdu
        simp only [droppedAs, Bool.and_eq_true, decide_eq_true_eq] at hdu
        apply hmem
        rw [← hwds, ← hdu.1]
        exact List.mem_map_of_mem hu
      rw [hzero]
  · intro wd hwd
    rw [(@Inst.Emitted.pass wr host g).nextWd] at hwd
    rw [hcount, r.future wd hwd, Nat.zero_add, List.countP_eq_zero]
    intro u hu hdu
    simp only [droppedAs, Bool.and_eq_true, decide_eq_true_eq] at hdu
    obtain ⟨v, hv, hvwd, -⟩ := mem_scanAll hu
    have := (t.range v hv).2
    omega

/-! ### Removing -/

/-- Where a removal hits, it takes out the one watch with that descriptor. -/
theorem rmWatch_split {wr : Nat → Written} {g : Inst} {wd : Int}
    (h : (g.rmWatch wr wd).2 = .ok ()) :
    ∃ l₁ w l₂, g.watches = l₁ ++ w :: l₂ ∧ w.wd = wd ∧
      (g.rmWatch wr wd).1 = { g.emit wr wd inIgnored [] with watches := l₁ ++ l₂ } := by
  unfold Inst.rmWatch at h ⊢
  simp only at h ⊢
  split at h
  · rename_i hany
    obtain ⟨v, hv, hhit⟩ := List.any_eq_true.mp hany
    obtain ⟨w, l₁, l₂, -, hw, hsplit, herase⟩ :=
      List.exists_of_eraseP (p := fun w : Watch => w.wd = wd && !w.dropped) hv hhit
    simp only [Bool.and_eq_true, decide_eq_true_eq] at hw
    refine ⟨l₁, w, l₂, hsplit, hw.1, ?_⟩
    rw [if_pos hany, herase]
  · cases h

theorem rmWatch_miss {wr : Nat → Written} {g : Inst} {wd : Int}
    (h : (g.rmWatch wr wd).2 ≠ .ok ()) : (g.rmWatch wr wd).1 = g := by
  unfold Inst.rmWatch at h ⊢
  simp only at h ⊢
  split at h
  · exact absurd rfl h
  · rename_i hany
    rw [if_neg hany]

theorem Inst.Tidy.of_sublist {g g' : Inst} (t : g.Tidy) (hsub : g'.watches.Sublist g.watches)
    (hnext : g'.nextWd = g.nextWd) : g'.Tidy where
  unmarked w hw := t.unmarked w (hsub.subset hw)
  masked w hw := t.masked w (hsub.subset hw)
  nodup := (hsub.map Watch.wd).nodup t.nodup
  range w hw := by
    rw [hnext]
    exact t.range w (hsub.subset hw)
  next_pos := by
    rw [hnext]
    exact t.next_pos

theorem Inst.Tidy.rmWatch {wr : Nat → Written} {g : Inst} (t : g.Tidy) (wd : Int) :
    (g.rmWatch wr wd).1.Tidy := by
  by_cases hok : (g.rmWatch wr wd).2 = .ok ()
  · obtain ⟨l₁, w, l₂, hsplit, -, hr⟩ := @rmWatch_split wr g wd hok
    refine t.of_sublist ?_ (@Inst.Emitted.rmWatch wr g wd).nextWd
    rw [hr, hsplit]
    exact (List.sublist_cons_self w l₂).append_left l₁
  · rw [rmWatch_miss hok]
    exact t

theorem Inst.Reported.rmWatch {wr : Nat → Written} {g : Inst} {issued : Int → Prop} (t : g.Tidy)
    (r : g.Reported issued) (wd : Int) (hlive : (g.rmWatch wr wd).1.dead = false) :
    (g.rmWatch wr wd).1.Reported issued := by
  by_cases hok : (g.rmWatch wr wd).2 = .ok ()
  · obtain ⟨l₁, w, l₂, hsplit, rfl, hr⟩ := @rmWatch_split wr g wd hok
    have hnext := (@Inst.Emitted.rmWatch wr g w.wd).nextWd
    rw [hr] at hlive hnext ⊢
    have hw : w ∈ g.watches := by
      rw [hsplit]
      simp
    have hcount : ∀ wd, (g.emit wr w.wd inIgnored []).ignored wd =
        g.ignored wd + if w.wd = wd then 1 else 0 := by
      intro wd
      rw [emit_ignored hlive]
      simp
    -- the descriptor taken out is on no other watch
    have hother : ∀ u ∈ l₁ ++ l₂, w.wd ≠ u.wd := by
      have hn := t.nodup
      rw [hsplit, List.map_append, List.map_cons, List.nodup_middle, List.nodup_cons,
        ← List.map_append] at hn
      intro u hu he
      exact hn.1 (he ▸ List.mem_map_of_mem hu)
    constructor
    · intro u hu
      have hug : u ∈ g.watches := by
        rw [hsplit]
        rcases List.mem_append.mp hu with h | h
        · simp [h]
        · simp [h]
      show (g.emit wr w.wd inIgnored []).ignored u.wd = 0
      rw [hcount, r.listed u hug, if_neg (hother u hu)]
    · intro wd hi hnot
      show (g.emit wr w.wd inIgnored []).ignored wd = 1
      rw [hcount]
      by_cases he : w.wd = wd
      · rw [if_pos he, ← he, r.listed w hw]
      · rw [if_neg he, r.left wd hi]
        rw [hsplit]
        simp only [List.map_append, List.map_cons, List.mem_append, List.mem_cons, not_or] at hnot ⊢
        exact ⟨hnot.1, Ne.symm he, hnot.2⟩
    · intro wd hwd
      rw [hnext] at hwd
      show (g.emit wr w.wd inIgnored []).ignored wd = 0
      have hlt := (t.range w hw).2
      rw [hcount, r.future wd hwd, if_neg (by omega)]
  · rw [rmWatch_miss hok] at hlive ⊢
    exact r

/-! ### Adding -/

/-- The call gets as far as drawing a new descriptor. -/
def Inst.Draws (g : Inst) (path : Name) (res : Resources) : Prop :=
  g.watches.find? (liveAt path) = none ∧ g.watches.length < maxWatches ∧ res.grow = true

/-- The first listing finds the directory, and the counter has room. -/
structure Inst.Steady (g : Inst) (path : Name) (res : Resources) (ls : Listing) (st : Stat) :
    Prop where
  there : st.isdir = true → res.dup = true → ls ≠ .gone
  room : g.nextWd < 2 ^ 31 - 1

theorem addWatch_cases (wr : Nat → Written) (ls : Listing) (res : Resources) (g : Inst)
    (path : Name) (mask : Mask) (st : Stat) :
    (∃ e, g.addWatch wr ls res path mask st = (g, .error e)) ∨
    (∃ l₁ w l₂, g.watches = l₁ ++ w :: l₂ ∧ g.addWatch wr ls res path mask st =
      ({ g with watches := l₁ ++ remask mask w :: l₂ }, .ok w.wd)) ∨
    (g.Draws path res ∧
      g.addWatch wr ls res path mask st = ({ g with nextWd := incr g.nextWd }, .error .enomem)) ∨
    (g.Draws path res ∧ res.dup = true ∧ ∃ scanning result,
      g.addWatch wr ls res path mask st =
        ({ (firstScan wr ls g path mask st).1 with
            watches := g.watches ++ [(firstScan wr ls g path mask st).2]
            scanning := scanning }, result) ∧
      ∀ wd, result = .ok wd → wd = (firstScan wr ls g path mask st).2.wd) := by
  unfold Inst.addWatch
  split
  · rename_i w hw
    split
    · exact Or.inl ⟨_, rfl⟩
    · right; left
      obtain ⟨l₁, l₂, hsplit, hmodify⟩ := modify_findIdx hw (remask mask)
      exact ⟨l₁, w, l₂, hsplit, by rw [hmodify]⟩
  · rename_i hnone
    split
    · exact Or.inl ⟨_, rfl⟩
    · rename_i hlen
      split
      · exact Or.inl ⟨_, rfl⟩
      · rename_i hgrow
        have hdraws : g.Draws path res := ⟨hnone, by omega, by simpa using hgrow⟩
        split
        · exact Or.inr (Or.inr (Or.inl ⟨hdraws, rfl⟩))
        · rename_i hdup
          refine Or.inr (Or.inr (Or.inr ⟨hdraws, by simpa using hdup, ?_⟩))
          simp only
          split
          · split
            · exact ⟨true, _, rfl, by simp [eq_comm]⟩
            · exact ⟨(firstScan wr ls g path mask st).1.scanning, _, rfl, by simp⟩
          · exact ⟨(firstScan wr ls g path mask st).1.scanning, _, rfl, by simp [eq_comm]⟩

theorem firstScan_spec {wr : Nat → Written} {ls : Listing} {g : Inst} {path : Name} {mask : Mask}
    {st : Stat} (hthere : st.isdir = true → ls ≠ .gone) :
    (firstScan wr ls g path mask st).2.wd = g.nextWd ∧
    (firstScan wr ls g path mask st).2.mask = mask ∧
    (firstScan wr ls g path mask st).2.dropped = false ∧
    ((firstScan wr ls g path mask st).1.dead = false →
      ∀ wd, (firstScan wr ls g path mask st).1.ignored wd = g.ignored wd) := by
  unfold firstScan
  simp only
  split
  · rename_i hdir
    cases ls with
    | gone => exact absurd rfl (hthere hdir)
    | error => exact ⟨rfl, rfl, rfl, fun _ _ => rfl⟩
    | entries l =>
      refine ⟨rfl, rfl, rfl, ?_⟩
      intro hlive wd
      simp only [scanDir] at hlive ⊢
      rw [emitAll_ignored _ _ hlive, diff, diffLoop_ignored]
      simp [Inst.ignored]
  · exact ⟨rfl, rfl, rfl, fun _ _ => rfl⟩

theorem mem_remask {l₁ l₂ : List Watch} {w u : Watch} {mask : Mask}
    (h : u ∈ l₁ ++ remask mask w :: l₂) :
    ∃ v ∈ l₁ ++ w :: l₂, v.wd = u.wd ∧ v.dropped = u.dropped ∧
      (u.mask = v.mask ∨ u.mask = (remask mask v).mask) := by
  rcases List.mem_append.mp h with h | h
  · exact ⟨u, by simp [h], rfl, rfl, Or.inl rfl⟩
  · rcases List.mem_cons.mp h with rfl | h
    · exact ⟨w, by simp, rfl, rfl, Or.inr rfl⟩
    · exact ⟨u, by simp [h], rfl, rfl, Or.inl rfl⟩

theorem remask_ne_zero {mask : Mask} (w : Watch) (h : mask ≠ 0#32) : (remask mask w).mask ≠ 0#32 := by
  unfold remask
  simp only
  split
  · intro hz
    exact h (BitVec.or_eq_zero_iff.mp hz).2
  · exact h

theorem wds_remask (l₁ l₂ : List Watch) (w : Watch) (mask : Mask) :
    (l₁ ++ remask mask w :: l₂).map Watch.wd = (l₁ ++ w :: l₂).map Watch.wd := by
  simp [remask]

theorem Inst.Tidy.addWatch {wr : Nat → Written} {ls : Listing} {res : Resources} {g : Inst}
    {path : Name} {mask : Mask} {st : Stat} (t : g.Tidy) (hmask : mask ≠ 0#32)
    (hs : g.Draws path res → g.Steady path res ls st) :
    (g.addWatch wr ls res path mask st).1.Tidy := by
  rcases addWatch_cases wr ls res g path mask st with
    ⟨e, he⟩ | ⟨l₁, w, l₂, hsplit, he⟩ | ⟨hd, he⟩ | ⟨hd, hdup, scanning, result, he, -⟩
  · rw [he]
    exact t
  · rw [he]
    constructor
    · intro u hu
      obtain ⟨v, hv, -, hvd, -⟩ := mem_remask hu
      rw [← hvd]
      exact t.unmarked v (hsplit ▸ hv)
    · intro u hu
      obtain ⟨v, hv, -, -, hm | hm⟩ := mem_remask hu
      · rw [hm]
        exact t.masked v (hsplit ▸ hv)
      · rw [hm]
        exact remask_ne_zero v hmask
    · show ((l₁ ++ remask mask w :: l₂).map Watch.wd).Nodup
      rw [wds_remask, ← hsplit]
      exact t.nodup
    · intro u hu
      obtain ⟨v, hv, hwd, -, -⟩ := mem_remask hu
      rw [← hwd]
      exact t.range v (hsplit ▸ hv)
    · exact t.next_pos
  · rw [he]
    have hincr := incr_eq t.next_pos (hs hd).room
    refine ⟨t.unmarked, t.masked, t.nodup, ?_, ?_⟩
    · intro u hu
      have := t.range u hu
      show 0 < u.wd ∧ u.wd < incr g.nextWd
      omega
    · show 0 < incr g.nextWd
      have := t.next_pos
      omega
  · rw [he]
    have hincr := incr_eq t.next_pos (hs hd).room
    have hpos := t.next_pos
    obtain ⟨hwd, hm, hdr, -⟩ := @firstScan_spec wr ls g path mask st fun h => (hs hd).there h hdup
    have hnext : (firstScan wr ls g path mask st).1.nextWd = incr g.nextWd :=
      (firstScan_emitted ls g path mask st).nextWd
    constructor
    · intro u hu
      rcases List.mem_append.mp hu with hu | hu
      · exact t.unmarked u hu
      · rw [List.mem_singleton.mp hu]
        exact hdr
    · intro u hu
      rcases List.mem_append.mp hu with hu | hu
      · exact t.masked u hu
      · rw [List.mem_singleton.mp hu, hm]
        exact hmask
    · simp only [List.map_append, List.map_cons, List.map_nil, hwd]
      refine List.nodup_append.mpr ⟨t.nodup, by simp, ?_⟩
      intro a ha b hb
      obtain ⟨u, hu, rfl⟩ := List.mem_map.mp ha
      have := (t.range u hu).2
      rw [List.mem_singleton.mp hb]
      omega
    · intro u hu
      show 0 < u.wd ∧ u.wd < (firstScan wr ls g path mask st).1.nextWd
      rcases List.mem_append.mp hu with hu | hu
      · have := t.range u hu
        omega
      · rw [List.mem_singleton.mp hu, hwd]
        omega
    · show 0 < (firstScan wr ls g path mask st).1.nextWd
      omega

/-- The descriptors given out after the call. -/
def issuedAfter (issued : Int → Prop) (result : Except Err Int) (wd : Int) : Prop :=
  issued wd ∨ result = .ok wd

theorem Inst.Reported.addWatch {wr : Nat → Written} {ls : Listing} {res : Resources} {g : Inst}
    {path : Name} {mask : Mask} {st : Stat} {issued : Int → Prop} (t : g.Tidy)
    (r : g.Reported issued) (hs : g.Draws path res → g.Steady path res ls st)
    (hlive : (g.addWatch wr ls res path mask st).1.dead = false) :
    (g.addWatch wr ls res path mask st).1.Reported
      (issuedAfter issued (g.addWatch wr ls res path mask st).2) := by
  rcases addWatch_cases wr ls res g path mask st with
    ⟨e, he⟩ | ⟨l₁, w, l₂, hsplit, he⟩ | ⟨hd, he⟩ | ⟨hd, hdup, scanning, result, he, hwd'⟩
  · rw [he]
    refine ⟨r.listed, ?_, r.future⟩
    rintro wd (hi | hi) hnot
    · exact r.left wd hi hnot
    · cases hi
  · rw [he]
    refine ⟨?_, ?_, r.future⟩
    · intro u hu
      obtain ⟨v, hv, hwd, -, -⟩ := mem_remask hu
      rw [← hwd]
      exact r.listed v (hsplit ▸ hv)
    · intro wd hi hnot
      rw [show ({ g with watches := l₁ ++ remask mask w :: l₂ } : Inst).watches =
        l₁ ++ remask mask w :: l₂ from rfl, wds_remask, ← hsplit] at hnot
      rcases hi with hi | hi
      · exact r.left wd hi hnot
      · cases hi
        exact absurd (hsplit ▸ by simp) hnot
  · rw [he]
    have hincr := incr_eq t.next_pos (hs hd).room
    refine ⟨r.listed, ?_, ?_⟩
    · rintro wd (hi | hi) hnot
      · exact r.left wd hi hnot
      · cases hi
    · intro wd hwd
      have hwd : incr g.nextWd ≤ wd := hwd
      exact r.future wd (by omega)
  · rw [he] at hlive ⊢
    have hincr := incr_eq t.next_pos (hs hd).room
    obtain ⟨hwd, -, -, hcount⟩ := @firstScan_spec wr ls g path mask st fun h => (hs hd).there h hdup
    have hcount := hcount hlive
    have hnext : (firstScan wr ls g path mask st).1.nextWd = incr g.nextWd :=
      (firstScan_emitted ls g path mask st).nextWd
    constructor
    · intro u hu
      show (firstScan wr ls g path mask st).1.ignored u.wd = 0
      rw [hcount]
      rcases List.mem_append.mp hu with hu | hu
      · exact r.listed u hu
      · rw [List.mem_singleton.mp hu, hwd]
        exact r.future g.nextWd (Int.le_refl _)
    · intro wd hi hnot
      show (firstScan wr ls g path mask st).1.ignored wd = 1
      rw [hcount]
      simp only [List.map_append, List.map_cons, List.map_nil, List.mem_append, List.mem_singleton,
        not_or] at hnot
      rcases hi with hi | hi
      · exact r.left wd hi hnot.1
      · exact absurd (hwd' wd hi) hnot.2
    · intro wd hle
      have hle : (firstScan wr ls g path mask st).1.nextWd ≤ wd := hle
      show (firstScan wr ls g path mask st).1.ignored wd = 0
      rw [hcount]
      exact r.future wd (by omega)

/-! ## Over whole runs -/

/-- No directory vanishes between the existence check and the first listing of
its watch, and no instance has used up its descriptors. -/
def NothingVanishes (s : State) : Label → Prop
  | .addWatch fd path mask host _ res => ∀ i g p st,
      s.target fd path mask host = .ok (i, g, p, st) → g.Draws p res →
      g.Steady p res (host.opendir p) st
  | _ => True

def issuedIn (log : List Obs) (p : Nat) (wd : Int) : Prop := .watch p wd ∈ log

def Kept (s : State) (log : List Obs) : Prop :=
  ∀ i g, s.slots i = some g → g.Tidy ∧ (g.dead = false → g.Reported (issuedIn log g.pipe))

theorem Inst.Reported.anti {g : Inst} {issued issued' : Int → Prop} (r : g.Reported issued)
    (h : ∀ wd, issued' wd → issued wd) : g.Reported issued' :=
  ⟨r.listed, fun wd hi => r.left wd (h wd hi), r.future⟩

namespace Kept

variable {s : State} {log : List Obs}

/-- Slots that stay as they are, under observations of other pipes. -/
theorem other {out : List Obs} {j : Fin maxInstances} {h : Inst} (k : Kept s log)
    (hj : s.slots j = some h) (hout : ∀ wd, .watch h.pipe wd ∉ out) :
    h.Tidy ∧ (h.dead = false → h.Reported (issuedIn (out ++ log) h.pipe)) := by
  obtain ⟨ht, hr⟩ := k j h hj
  refine ⟨ht, fun hd => (hr hd).anti fun wd hi => ?_⟩
  rcases List.mem_append.mp hi with hi | hi
  · exact absurd hi (hout wd)
  · exact hi

theorem put {i : Fin maxInstances} {g g' : Inst} {out : List Obs} (k : Kept s log) (w : Wired s)
    (hg : s.slots i = some g) (hp : g'.pipe = g.pipe) (hout : ∀ o ∈ out, o.pipe = g.pipe)
    (ht : g'.Tidy) (hr : g'.dead = false → g'.Reported (issuedIn (out ++ log) g.pipe)) :
    Kept (s.put i g') (out ++ log) := by
  intro j h hj
  rcases Wired.slots_update hj with ⟨rfl, hh⟩ | ⟨hji, hj⟩
  · cases hh
    rw [hp]
    exact ⟨ht, hr⟩
  · refine k.other hj fun wd hmem => hji ?_
    exact w.pipe_inj hj hg (hout _ hmem)

theorem install {i : Fin maxInstances} {p0 p1 : Int} (k : Kept s log) (acc : Accounted s log) :
    Kept (s.install i p0 p1) ([.made p0 s.pipes] ++ log) := by
  intro j h hj
  rcases Wired.slots_update hj with ⟨-, hh⟩ | ⟨-, hj⟩
  · cases hh
    constructor
    · exact ⟨by simp, by simp, by simp, by simp, Int.one_pos⟩
    · intro _
      refine ⟨by simp, ?_, fun wd _ => rfl⟩
      intro wd hi
      have hi : Obs.watch s.pipes wd ∈ log := by simpa [issuedIn] using hi
      exact absurd (acc.known hi) (Nat.lt_irrefl _)
  · exact k.other hj (by simp)

theorem failedObs_pipe {g g' : Inst} : ∀ o ∈ failedObs g g', o = .failed g.pipe := by
  intro o ho
  unfold failedObs at ho
  split at ho
  · exact List.mem_singleton.mp ho
  · cases ho

/-- Nothing was given out by an operation that only reports. -/
theorem issuedIn_failedObs {g g' : Inst} {p : Nat} {wd : Int}
    (h : issuedIn (failedObs g g' ++ log) p wd) : issuedIn log p wd := by
  rcases List.mem_append.mp h with h | h
  · cases failedObs_pipe _ h
  · exact h

theorem addWatch (k : Kept s log) (w : Wired s) (fd : Int) (path : Option Name) (mask : Mask)
    (host : Host) (room : Nat → Room) (res : Resources)
    (hok : NothingVanishes s (.addWatch fd path mask host room res)) :
    Kept (s.emuAddWatch fd path mask host room res).state
      ((s.emuAddWatch fd path mask host room res).obs ++ log) := by
  unfold State.emuAddWatch
  split
  · exact k
  · rename_i i g p st htarget
    obtain ⟨hi, hmask⟩ := target_ok htarget
    have hg := (instByFd_some hi).1
    have hs := hok i g p st htarget
    obtain ⟨ht, hr⟩ := k i g hg
    have hev := @Inst.Evolves.addWatch (s.writes g room) (host.opendir p) res g p mask st
    refine k.put w hg hev.pipe ?_ (ht.addWatch (mask_ne_zero hmask) hs) ?_
    · intro o ho
      rcases List.mem_append.mp ho with ho | ho
      · split at ho
        · rw [List.mem_singleton.mp ho]
          rfl
        · cases ho
      · rw [failedObs_pipe o ho]
        rfl
    · intro hlive
      refine ((hr (hev.live hlive)).addWatch ht hs hlive).anti ?_
      intro wd hi
      simp only [issuedIn, List.append_assoc] at hi
      rcases List.mem_append.mp hi with hi | hi
      · split at hi
        · rename_i hres
          simp only [List.mem_singleton, Obs.watch.injEq] at hi
          exact Or.inr (hi.2 ▸ hres)
        · cases hi
      · exact Or.inl (issuedIn_failedObs hi)

theorem rmWatch (k : Kept s log) (w : Wired s) (fd wd : Int) (room : Nat → Room) :
    Kept (s.emuRmWatch fd wd room).state ((s.emuRmWatch fd wd room).obs ++ log) := by
  unfold State.emuRmWatch
  split
  · exact k
  · rename_i i g hi
    have hg := (instByFd_some hi).1
    obtain ⟨ht, hr⟩ := k i g hg
    have hev := @Inst.Emitted.rmWatch (s.writes g room) g wd
    refine k.put w hg hev.pipe ?_ (ht.rmWatch wd) ?_
    · intro o ho
      rw [failedObs_pipe o ho]
      rfl
    · intro hlive
      exact (Inst.Reported.rmWatch ht (hr (hev.live hlive)) wd hlive).anti
        fun wd => issuedIn_failedObs

theorem pass {i : Fin maxInstances} {g : Inst} (k : Kept s log) (w : Wired s)
    (hg : s.slots i = some g) (host : Host) (room : Nat → Room) :
    Kept (s.put i (g.pass (s.writes g room) host))
      (failedObs g (g.pass (s.writes g room) host) ++ log) := by
  obtain ⟨ht, hr⟩ := k i g hg
  have hev := @Inst.Emitted.pass (s.writes g room) host g
  refine k.put w hg hev.pipe ?_ ht.pass ?_
  · intro o ho
    rw [failedObs_pipe o ho]
    rfl
  · intro hlive
    exact (Inst.Reported.pass ht (hr (hev.live hlive)) hlive).anti fun wd => issuedIn_failedObs

theorem step {s' : State} {a : Label} {out : List Obs} (k : Kept s log) (w : Wired s)
    (acc : Accounted s log) (hok : NothingVanishes s a) (hs : State.step s a = some (s', out)) :
    Kept s' (out ++ log) := by
  cases a with
  | addWatch fd path mask host room res =>
    simp only [State.step, Option.some.injEq, Prod.mk.injEq] at hs
    obtain ⟨rfl, rfl⟩ := hs
    exact k.addWatch w fd path mask host room res hok
  | rmWatch fd wd room =>
    simp only [State.step, Option.some.injEq, Prod.mk.injEq] at hs
    obtain ⟨rfl, rfl⟩ := hs
    exact k.rmWatch w fd wd room
  | pass i host room =>
    simp only [State.step] at hs
    cases hg : s.slots i with
    | none => simp [hg] at hs
    | some g =>
      simp only [hg, Option.ite_none_right_eq_some, Option.some.injEq, Prod.mk.injEq] at hs
      obtain ⟨-, rfl, rfl⟩ := hs
      exact k.pass w hg host room
  | init1 flags fds =>
    simp only [State.step, Option.ite_none_right_eq_some, Option.some.injEq, Prod.mk.injEq] at hs
    obtain ⟨-, rfl, rfl⟩ := hs
    rcases emuInit1_cases s flags fds with ⟨hs, ho⟩ | ⟨i, p0, p1, -, -, hs, ho⟩
    · rw [hs, ho]
      exact k
    · rw [hs, ho]
      exact k.install acc
  | exit i =>
    simp only [State.step] at hs
    cases hg : s.slots i with
    | none => simp [hg] at hs
    | some g =>
      simp only [hg, Option.ite_none_right_eq_some, Option.some.injEq, Prod.mk.injEq] at hs
      obtain ⟨-, rfl, rfl⟩ := hs
      intro j h hj
      rcases Wired.slots_update hj with ⟨-, hh⟩ | ⟨-, hj⟩
      · cases hh
      · exact k.other hj (by simp)
  | closed fd =>
    simp only [State.step] at hs
    split at hs
    · simp only [Option.some.injEq, Prod.mk.injEq] at hs
      obtain ⟨rfl, rfl⟩ := hs
      exact fun j h hj => k.other hj (by simp)
    · simp only [Option.some.injEq, Prod.mk.injEq] at hs
      obtain ⟨rfl, rfl⟩ := hs
      exact k
    · cases hs
  | opened fd id =>
    simp only [State.step, Option.ite_none_right_eq_some, Option.some.injEq, Prod.mk.injEq] at hs
    obtain ⟨-, rfl, rfl⟩ := hs
    exact k

theorem of_run (h : machine.Run NothingVanishes s log) : Kept s log := by
  refine (Machine.Run.invariant (P := fun s log => Wired s ∧ Accounted s log ∧ Kept s log)
    ⟨Wired.start, Accounted.start, ?_⟩ ?_ h).2.2
  · intro i g hg
    simp [machine, State.init] at hg
  · rintro s log a s' out ⟨w, acc, k⟩ hok hs
    exact ⟨w.move (step_move hs), acc.move w (step_move hs), k.step w acc hok hs⟩

end Kept

/-- A descriptor given out is on the list and unreported, or off the list and
reported once; the descriptors on the list are distinct and positive. -/
structure EndsOnce (g : Inst) (log : List Obs) : Prop where
  once : g.dead = false → ∀ wd, .watch g.pipe wd ∈ log →
    ((∃ w ∈ g.watches, w.wd = wd ∧ w.dropped = false) ∧ g.ignored wd = 0) ∨
    (wd ∉ g.watches.map Watch.wd ∧ g.ignored wd = 1)
  nodup : (g.watches.map Watch.wd).Nodup
  pos : ∀ w ∈ g.watches, 0 < w.wd

/-- **Every watch ends with one IN_IGNORED.** In a run in which no directory
vanishes between the existence check and the first listing and no counter
overflows, every watch descriptor a live instance ever gave out is listed and has
not been reported, or has left the list with exactly one IN_IGNORED. -/
theorem watch_leaves_with_one_ignored {s : State} {log : List Obs}
    (h : machine.Run NothingVanishes s log) {i : Fin maxInstances} {g : Inst}
    (hg : s.slots i = some g) : EndsOnce g log := by
  obtain ⟨t, hr⟩ := Kept.of_run h i g hg
  refine ⟨?_, t.nodup, fun w hw => (t.range w hw).1⟩
  intro hd wd hi
  by_cases hmem : wd ∈ g.watches.map Watch.wd
  · obtain ⟨w, hw, rfl⟩ := List.mem_map.mp hmem
    exact Or.inl ⟨⟨w, hw, rfl, t.unmarked w hw⟩, (hr hd).listed w hw⟩
  · exact Or.inr ⟨hmem, (hr hd).left wd hi hmem⟩

def aDirectory : Stat := ⟨1, 0, 0, 0, 0, true⟩

/-- The directory is there for `stat` and gone for `opendir`. -/
def vanishing : Host := ⟨fun _ _ => .found aDirectory, fun _ => .gone⟩

def emptyDirectory : Host := ⟨fun _ _ => .found aDirectory, fun _ => .entries []⟩

/-- The directory is removed between two passes of the scan. -/
theorem watch_leaves_with_one_ignored_removed :
    ∃ s log g, machine.Run NothingVanishes s log ∧ s.slots slot0 = some g ∧
      .watch 0 1 ∈ log ∧ g.watches = [] ∧ EndsOnce g log := by
  have hstart : machine.Run NothingVanishes machine.init [] := .start
  obtain ⟨s, log, hrun, h⟩ := hstart.extend
    (fun s a =>
      match a with
      | .addWatch fd path mask host _ _ =>
          match s.target fd path mask host with
          | .ok (_, g, p, _) => host.opendir p ≠ .gone && g.nextWd ≤ 1
          | .error _ => true
      | _ => true)
    (by
      intro s a h
      unfold NothingVanishes
      split
      · intro i g p st ht _
        simp only [ht, Bool.and_eq_true, decide_eq_true_eq] at h
        exact ⟨fun _ _ => h.1, by omega⟩
      · trivial)
    [.init1 0#32 (some (3, 4)),
      .addWatch 3 (some [97]) inCreate emptyDirectory (fun _ => .ok) ⟨true, true, true⟩,
      .pass slot0 noFile (fun _ => .ok)]
    (fun s log => .watch 0 1 ∈ log ∧ (s.slots slot0).any fun g => g.watches = [])
    (by decide)
  simp only [decide_eq_true_eq, Option.any_eq_true] at h
  obtain ⟨hw, g, hg, hl⟩ := h
  exact ⟨s, log, g, hrun, hg, hw, hl, watch_leaves_with_one_ignored hrun hg⟩

/-- With the directory gone before the first listing, the call still returns
descriptor 1, and the next pass takes it off the list without a word. -/
theorem vanished_before_first_listing :
    ∃ s log g, machine.Run anyStep s log ∧ s.slots slot0 = some g ∧ g.dead = false ∧
      .watch 0 1 ∈ log ∧ g.watches = [] ∧ g.ignored 1 = 0 ∧ ¬ EndsOnce g log := by
  have hstart : machine.Run anyStep machine.init [] := .start
  obtain ⟨s, log, hrun, h⟩ := hstart.extend (fun _ _ => true) (fun _ _ _ => trivial)
    [.init1 0#32 (some (3, 4)),
      .addWatch 3 (some [97]) inCreate vanishing (fun _ => .ok) ⟨true, true, true⟩,
      .pass slot0 noFile (fun _ => .ok)]
    (fun s log => .watch 0 1 ∈ log ∧ (s.slots slot0).any fun g =>
      !g.dead && g.watches = [] && g.ignored 1 = 0 && g.pipe = 0)
    (by decide)
  simp only [decide_eq_true_eq, Option.any_eq_true, Bool.and_eq_true, Bool.not_eq_true'] at h
  obtain ⟨hw, g, hg, ⟨⟨hd, hl⟩, hi⟩, hp⟩ := h
  refine ⟨s, log, g, hrun, hg, hd, hw, hl, hi, ?_⟩
  intro he
  rcases he.once hd 1 (hp ▸ hw) with ⟨⟨w, hmem, -⟩, -⟩ | ⟨-, hone⟩
  · simp [hl] at hmem
  · omega

end ApeShim.Inotify
