import ApeShim.Epoll.Registration

/-!
The interest list against its purpose: a finite map from descriptor to events
and data, from which a closed descriptor disappears. The map is read off the
history of successful calls and closes (`registry`); the list is what the code
keeps. They agree while programs deregister before they close (`Tidy`), and
`list_departs_from_map` shows what happens otherwise: `close` is not
intercepted, and the bad-descriptor probe acts on a number some time after it
found it bad.
-/

namespace ApeShim.Epoll
open Flags Keyed Trace

/-! ## The map -/

/-- What is registered for `fd` after a history, newest first. Removals by the
probe are not part of the meaning; a close is. -/
def registry (fd : Int) : List Obs → Option Event
  | [] => none
  | .added fd' ev :: older => if fd' = fd then some ev else registry fd older
  | .modified fd' ev :: older => if fd' = fd then some ev else registry fd older
  | .deleted fd' :: older => if fd' = fd then none else registry fd older
  | .closed fd' :: older => if fd' = fd then none else registry fd older
  | _ :: older => registry fd older

/-- The open file behind the number `fd` is registered. -/
def Registered (s : State) (log : List Obs) (fd : Int) : Prop :=
  s.files fd ≠ none ∧ registry fd log ≠ none

/-- The list stands for the map: it has the map's entries and no others, one per
descriptor and within its allocation, `epoll_ctl` answers as the map would, a
failing call changes nothing, removal by swapping keeps the other entries, and
no probe in flight takes a registration away. -/
structure RefinesMap (c : Config) (s : State) (log : List Obs) : Prop where
  unique : (s.interest.entries.map Entry.fd).Nodup
  fits : s.interest.entries.length ≤ s.interest.cap
  agrees : ∀ fd, (s.interest.findEntry fd).map Entry.registered =
    if s.files fd = none then none else registry fd log
  add : ∀ epfd fd ev grown, fd ≠ epfd →
    (emuCtl s.interest epfd .add fd (some ev) grown = .error .EEXIST ↔ Registered s log fd)
  mod : ∀ epfd fd ev grown, fd ≠ epfd →
    (emuCtl s.interest epfd .mod fd (some ev) grown = .error .ENOENT ↔ ¬ Registered s log fd)
  del : ∀ epfd fd ev grown, fd ≠ epfd →
    (emuCtl s.interest epfd .del fd ev grown = .error .ENOENT ↔ ¬ Registered s log fd)
  failed : ∀ epfd op fd ev grown e, emuCtl s.interest epfd op fd ev grown = .error e →
    step c s (.ctl epfd op fd ev grown) = some (s, [])
  swap : ∀ epfd fd ev grown i, emuCtl s.interest epfd .del fd ev grown = .ok i →
    i.entries.Perm (s.interest.entries.filter fun e => e.fd ≠ fd)
  probe : ∀ t s' out, step c s (.drop t) = some (s', out) → s'.interest = s.interest

/-! ## When the code meets it -/

/-- The program closes only what it has deregistered and adds only what is
open, a probe fails only on a closed number, and no number is added between a
wait finding it bad and removing it. -/
def Tidy (s : State) : Label → Prop
  | .closed fd => s.interest.findEntry fd = none
  | .ctl _ .add fd _ _ => s.files fd ≠ none ∧ ∀ t w todo n, s.phase t ≠ .dropping w fd todo n
  | .probe t true => ∀ w q todo n, s.phase t = .probing w (q :: todo) n → s.files q.fd = none
  | _ => True

theorem waitStep_files {c : Config} {s s' : State} {t : Nat} {a : Label} {ph : Phase} {out : List Obs}
    (h : waitStep c s t a ph = some (s', out)) :
    s'.files = s.files ∧ ∀ fd, Obs.closed fd ∉ out := by
  cases ph with
  | probing w todo n =>
    cases todo <;> simp only [waitStep] at h <;> repeat' split at h
    all_goals cases h
    all_goals simp
  | _ =>
    simp only [waitStep] at h
    repeat' split at h
    all_goals cases h
    all_goals simp

theorem step_files {c : Config} {s s' : State} {a : Label} {out : List Obs}
    (h : step c s a = some (s', out)) :
    (s'.files = s.files ∧ ∀ fd, Obs.closed fd ∉ out) ∨
    (∃ fd f, a = .opened fd f ∧ s'.files = Function.update s.files fd (some f) ∧ out = []) ∨
    (∃ fd, a = .closed fd ∧ s'.files = Function.update s.files fd none ∧ out = [.closed fd]) := by
  unfold step at h
  split at h
  · exact Or.inl (waitStep_files h)
  · split at h
    · split at h
      · cases h; exact Or.inl ⟨rfl, by simp⟩
      · rename_i op _ ev _ _ _ _ _
        cases h
        refine Or.inl ⟨rfl, fun fd => ?_⟩
        cases op <;> cases ev <;> simp [ctlObs]
    · cases h; exact Or.inl ⟨rfl, by simp⟩
    · split at h <;> cases h
      exact Or.inl ⟨rfl, by simp⟩
    · rename_i fd f _
      split at h <;> cases h
      exact Or.inr (Or.inl ⟨fd, f, rfl, rfl, rfl⟩)
    · rename_i fd _
      split at h <;> cases h
      · exact Or.inl ⟨rfl, by simp⟩
      · exact Or.inr (Or.inr ⟨fd, rfl, rfl, rfl⟩)
    · cases h

/-! ## The invariant -/

structure TidyInv (s : State) (log : List Obs) : Prop where
  map : ∀ fd, (s.interest.findEntry fd).map Entry.registered = registry fd log
  isOpen : ∀ fd e, s.interest.findEntry fd = some e → s.files fd ≠ none
  condemned : ∀ t w fd todo n, s.phase t = .dropping w fd todo n → s.interest.findEntry fd = none

/-- Nothing in `out` is about the registration of `fd`. -/
def quietFor (fd : Int) (o : Obs) : Prop :=
  match o with
  | .added fd' _ | .modified fd' _ | .deleted fd' | .closed fd' => fd' ≠ fd
  | _ => True

theorem registry_append {fd : Int} {log : List Obs} :
    ∀ out : List Obs, (∀ o ∈ out, quietFor fd o) → registry fd (out ++ log) = registry fd log
  | [], _ => rfl
  | o :: out, h => by
    have ih := @registry_append fd log out (fun x hx => h x (by simp [hx]))
    have ho := h o (by simp)
    cases o <;> simp_all [registry, quietFor]

/-- An entry that appears in a tidy step was added to an open number that no
probe has condemned, or was there before. -/
theorem tidy_fresh {c : Config} {s s' : State} {a : Label} {out : List Obs} (htidy : Tidy s a)
    (h : step c s a = some (s', out)) {fd : Int} {v : Event}
    (ho : out = [.added fd v] ∨ out = [.modified fd v]) :
    (s.files fd ≠ none ∧ ∀ t w todo n, s.phase t ≠ .dropping w fd todo n) ∨
      s.interest.findEntry fd ≠ none := by
  obtain ⟨epfd, op, grown, rfl, (⟨rfl, -⟩ | ⟨rfl, hn⟩)⟩ := step_registers h ho
  · exact Or.inl htidy
  · exact Or.inr hn

theorem tidyInv_map {c : Config} {s s' : State} {a : Label} {log out : List Obs}
    (hinv : TidyInv s log) (htidy : Tidy s a) (h : step c s a = some (s', out)) (fd : Int) :
    (s'.interest.findEntry fd).map Entry.registered = registry fd (out ++ log) := by
  rcases step_files h with ⟨-, hclosed⟩ | ⟨_, _, rfl, -, rfl⟩ | ⟨fd', rfl, -, rfl⟩
  · cases step_entry h fd with
    | same hsame ho =>
      rw [hsame, hinv.map fd, registry_append out]
      intro o hm
      have hab := ho o hm
      cases o with
      | closed fd' => exact absurd hm (hclosed fd')
      | _ => simp_all [quietFor, Obs.about]
    | fresh v hnew ho =>
      rw [hnew]
      rcases ho with ⟨rfl, -⟩ | ⟨rfl, -⟩ <;> simp [registry, Entry.registered, freshEntry]
    | gone hgone hb ho =>
      rcases ho with rfl | rfl
      · simp [hgone, registry]
      · obtain ⟨t, w, todo, n, hph⟩ := step_dropped h (List.mem_singleton.mpr rfl)
        exact absurd (hinv.condemned t w fd todo n hph) hb
    | rearmed bits hre ho =>
      rw [hre, ho, registry_append [_] (by simp [quietFor]), Option.map_map, ← hinv.map fd]
      congr 1
      funext e
      simp [Entry.registered]
    | disarmed t ev e₀ hb hdis hm ho =>
      rw [hdis, registry_append out, ← hinv.map fd, hb]
      · simp [Entry.registered]
      · intro o hmo
        obtain ⟨_, _, _, rfl⟩ := ho o hmo
        trivial
  · simp only [step, Label.thread] at h
    split at h <;> cases h
    exact hinv.map fd
  · have hi : s'.interest = s.interest := by
      simp only [step, Label.thread] at h
      split at h <;> cases h
      rfl
    rw [hi, hinv.map fd]
    by_cases hfd : fd' = fd
    · subst hfd
      have hnone : s.interest.findEntry fd' = none := htidy
      rw [← hinv.map fd', hnone]
      simp [registry]
    · exact (registry_append [_] (by simp [quietFor, hfd])).symm

theorem tidyInv_open {c : Config} {s s' : State} {a : Label} {log out : List Obs}
    (hinv : TidyInv s log) (htidy : Tidy s a) (h : step c s a = some (s', out)) (fd : Int) (e : Entry)
    (he : s'.interest.findEntry fd = some e) : s'.files fd ≠ none := by
  have hbefore : s.files fd ≠ none := by
    cases step_entry h fd with
    | same hsame => exact hinv.isOpen fd e (hsame ▸ he)
    | fresh v _ ho =>
      rcases tidy_fresh htidy h (ho.imp And.left And.left) with hf | hn
      · exact hf.1
      · obtain ⟨e₀, he₀⟩ := Option.ne_none_iff_exists'.mp hn
        exact hinv.isOpen fd e₀ he₀
    | gone hgone => rw [hgone] at he; cases he
    | rearmed bits hre =>
      rw [hre] at he
      obtain ⟨e₀, he₀, -⟩ := Option.map_eq_some_iff.mp he
      exact hinv.isOpen fd e₀ he₀
    | disarmed t ev e₀ hb => exact hinv.isOpen fd e₀ hb
  rcases step_files h with ⟨hf, -⟩ | ⟨fd', f, rfl, hf, -⟩ | ⟨fd', rfl, hf, rfl⟩
  · rwa [hf]
  · rw [hf, Function.update_apply]
    split
    · simp
    · exact hbefore
  · rw [hf, Function.update_apply, if_neg]
    · exact hbefore
    · rintro rfl
      have hmap := tidyInv_map hinv htidy h fd
      rw [he] at hmap
      simp [registry] at hmap

theorem tidyInv_condemned {c : Config} {s s' : State} {a : Label} {log out : List Obs}
    (hinv : TidyInv s log) (htidy : Tidy s a) (h : step c s a = some (s', out)) {t : Nat}
    {w : WaitCall} {fd : Int} {todo : List PollFd} {n : Nat}
    (hp : s'.phase t = .dropping w fd todo n) : s'.interest.findEntry fd = none := by
  have hwas : s.phase t = .dropping w fd todo n ∨
      (s.files fd = none ∧ s'.interest = s.interest) := by
    have h₀ := h
    unfold step at h₀
    split at h₀
    · rename_i t' hthread
      rcases waitStep_dropping h₀ hp with hk | ⟨q, u, rfl, rfl, hph, rfl, hi⟩
      · exact Or.inl hk
      · cases hthread
        exact Or.inr ⟨htidy w q todo n hph, hi⟩
    · have hphase : s'.phase = s.phase := by
        repeat' split at h₀
        all_goals cases h₀
        all_goals rfl
      exact Or.inl (hphase ▸ hp)
  rcases hwas with hk | ⟨hclosed, hi⟩
  · -- nothing is added under a probe that has condemned the number
    have hnone := hinv.condemned t w fd todo n hk
    cases step_entry h fd with
    | same hsame => rw [hsame, hnone]
    | fresh v _ ho =>
      rcases tidy_fresh htidy h (ho.imp And.left And.left) with hf | hn
      · exact absurd hk (hf.2 t w todo n)
      · exact absurd hnone hn
    | gone hgone => exact hgone
    | rearmed bits hre => rw [hre, hnone]; rfl
    | disarmed _ _ e₀ hb => rw [hnone] at hb; cases hb
  · rw [hi]
    cases hf : s.interest.findEntry fd with
    | none => rfl
    | some e => exact absurd hclosed (hinv.isOpen fd e hf)

theorem tidyInv_run {c : Config} {s : State} {log : List Obs} (h : (machine c).Run Tidy s log) :
    TidyInv s log := by
  refine h.invariant (P := TidyInv) ?_ ?_
  · refine ⟨fun fd => rfl, fun fd e he => ?_, fun t w fd todo n hp => ?_⟩
    · cases he
    · cases hp
  · intro s log a s' out hinv htidy hs
    exact ⟨tidyInv_map hinv htidy hs, tidyInv_open hinv htidy hs,
      fun t w fd todo n hp => tidyInv_condemned hinv htidy hs hp⟩

/-! ## What `epoll_ctl` answers -/

theorem emuCtl_add_exists {s : Interest} {epfd fd : Int} {ev : Event} {grown : Bool}
    (hfd : fd ≠ epfd) :
    emuCtl s epfd .add fd (some ev) grown = .error .EEXIST ↔ s.findEntry fd ≠ none := by
  simp only [emuCtl, hfd, ↓reduceIte, ctlAdd]
  split
  · rename_i hn
    simp only [hn, ne_eq, not_true_eq_false, iff_false]
    split_ifs <;> simp
  · rename_i hn
    simp [hn]

theorem emuCtl_mod_missing {s : Interest} {epfd fd : Int} {ev : Event} {grown : Bool}
    (hfd : fd ≠ epfd) :
    emuCtl s epfd .mod fd (some ev) grown = .error .ENOENT ↔ s.findEntry fd = none := by
  simp only [emuCtl, hfd, ↓reduceIte, ctlMod]
  split <;> simp_all

theorem emuCtl_del_missing {s : Interest} {epfd fd : Int} {ev : Option Event} {grown : Bool}
    (hfd : fd ≠ epfd) :
    emuCtl s epfd .del fd ev grown = .error .ENOENT ↔ s.findEntry fd = none := by
  simp only [emuCtl, hfd, ↓reduceIte, ctlDel]
  split <;> simp_all

theorem emuCtl_del_swap {s i : Interest} {epfd fd : Int} {ev : Option Event} {grown : Bool}
    (h : emuCtl s epfd .del fd ev grown = .ok i) :
    i.entries.Perm (s.entries.filter fun e => e.fd ≠ fd) := by
  simp only [emuCtl] at h
  split at h
  · cases h
  · obtain ⟨-, rfl⟩ := ctlDel_ok h
    exact s.table.swapRemove_perm fd

/-- **The list refines the map** in every run in which descriptors are
deregistered before they are closed and no condemned number is added. -/
theorem interest_list_refines_map (c : Config) {s : State} {log : List Obs}
    (h : (machine c).Run Tidy s log) : RefinesMap c s log := by
  have hinv := tidyInv_run h
  have hreg : ∀ fd, s.interest.findEntry fd ≠ none ↔ Registered s log fd := by
    intro fd
    constructor
    · intro hn
      obtain ⟨e, he⟩ := Option.ne_none_iff_exists'.mp hn
      refine ⟨hinv.isOpen fd e he, ?_⟩
      rw [← hinv.map fd, he]
      simp
    · rintro ⟨-, hr⟩ hnone
      rw [← hinv.map fd, hnone] at hr
      exact hr rfl
  refine ⟨s.interest.table.unique, s.interest.fits, fun fd => ?_, ?_, ?_, ?_, ?_, ?_, ?_⟩
  · split
    · rename_i hclosed
      cases hf : s.interest.findEntry fd with
      | none => rfl
      | some e => exact absurd hclosed (hinv.isOpen fd e hf)
    · exact hinv.map fd
  · exact fun epfd fd ev grown hfd => (emuCtl_add_exists hfd).trans (hreg fd)
  · exact fun epfd fd ev grown hfd => (emuCtl_mod_missing hfd).trans (by rw [← hreg fd]; simp)
  · exact fun epfd fd ev grown hfd => (emuCtl_del_missing hfd).trans (by rw [← hreg fd]; simp)
  · intro epfd op fd ev grown e he
    simp [step, Label.thread, he]
  · exact fun epfd fd ev grown i hi => emuCtl_del_swap hi
  · intro t s' out hs
    simp only [step, Label.thread] at hs
    rcases waitStep_interest hs with ⟨hi, -⟩ | ⟨w, fd, todo, n, hph, hf, -⟩ | ⟨w, p, rc, hph, -⟩
    · exact hi
    · exact absurd (hinv.condemned t w fd todo n hph) hf
    · rw [hph] at hs
      cases hs

/-- A tidy run: a descriptor is opened, registered, deregistered and closed, and
its number is registered again for another file. -/
theorem interest_list_refines_map_reused :
    ∃ s log, (machine ⟨plainHost, 3, 16⟩).Run Tidy s log ∧ s.files 5 = some 2 ∧
      registry 5 log = some ⟨EPOLLOUT, 8⟩ ∧ RefinesMap ⟨plainHost, 3, 16⟩ s log := by
  have hstart : (machine ⟨plainHost, 3, 16⟩).Run Tidy State.init [] := .start
  have hopened := Machine.Run.next (a := Label.opened 5 1) hstart trivial rfl
  have hadded := Machine.Run.next (a := Label.ctl 3 .add 5 (some ⟨EPOLLIN, 7⟩) true) hopened
    ⟨by simp [State.init], fun _ _ _ _ hp => (by cases hp)⟩ rfl
  have hdeleted := Machine.Run.next (a := Label.ctl 3 .del 5 none true) hadded trivial rfl
  have hclosed := Machine.Run.next (a := Label.closed 5) hdeleted rfl rfl
  have hreopened := Machine.Run.next (a := Label.opened 5 2) hclosed trivial rfl
  have hagain := Machine.Run.next (a := Label.ctl 3 .add 5 (some ⟨EPOLLOUT, 8⟩) true) hreopened
    ⟨by simp, fun _ _ _ _ hp => (by cases hp)⟩ rfl
  exact ⟨_, _, hagain, by simp, rfl, interest_list_refines_map _ hagain⟩

/-! ## What goes wrong -/

/-- `close` is not intercepted: after 5 is closed while registered and its
number reused, no file behind it is registered, and every ADD is refused. And
the probe removes by number: 5 is found closed, then reopened and added by
another thread, and the drop takes the new registration away. -/
theorem list_departs_from_map :
    (∃ s log, (machine ⟨plainHost, 3, 16⟩).Run anyStep s log ∧ s.files 5 = some 2 ∧
      registry 5 log = none ∧ ¬ RefinesMap ⟨plainHost, 3, 16⟩ s log ∧
      ∀ ev grown, emuCtl s.interest 3 .add 5 (some ev) grown = .error .EEXIST) ∧
    ∃ s log, (machine ⟨plainHost, 3, 16⟩).Run anyStep s log ∧ s.files 5 = some 2 ∧
      registry 5 log = some ⟨EPOLLOUT, 8⟩ ∧ s.interest.findEntry 5 = none := by
  have hstart : (machine ⟨plainHost, 3, 16⟩).Run anyStep State.init [] := .start
  constructor
  · obtain ⟨s, log, hrun, hp⟩ := hstart.extend (fun _ _ => true) (fun _ _ _ => trivial)
      [.opened 5 1, .ctl 3 .add 5 (some ⟨EPOLLIN, 7⟩) true, .closed 5, .opened 5 2]
      (fun s log => decide (s.files 5 = some 2 ∧ registry 5 log = none ∧
        s.interest.findEntry 5 ≠ none)) (by decide)
    obtain ⟨hfile, hreg, hentry⟩ := of_decide_eq_true hp
    refine ⟨s, log, hrun, hfile, hreg, ?_, fun ev grown => ?_⟩
    · intro href
      have hagrees := href.agrees 5
      rw [if_neg (by simp [hfile]), hreg] at hagrees
      exact hentry (Option.map_eq_none_iff.mp hagrees)
    · exact (emuCtl_add_exists (by decide)).mpr hentry
  · obtain ⟨s, log, hrun, hp⟩ := hstart.extend (fun _ _ => true) (fun _ _ _ => trivial)
      [.opened 5 1, .ctl 3 .add 5 (some ⟨EPOLLIN, 7⟩) true, .enter 0 1 true, .snap 0 true,
        .ctl 3 .del 5 none true, .closed 5, .poll 0 .ebadf false, .probe 0 true, .opened 5 2,
        .ctl 3 .add 5 (some ⟨EPOLLOUT, 8⟩) true, .drop 0]
      (fun s log => decide (s.files 5 = some 2 ∧ registry 5 log = some ⟨EPOLLOUT, 8⟩ ∧
        s.interest.findEntry 5 = none)) (by decide)
    exact ⟨s, log, hrun, of_decide_eq_true hp⟩

end ApeShim.Epoll
