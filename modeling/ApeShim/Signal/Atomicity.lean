import ApeShim.Signal.Sigaction

/-!
Changing a disposition against deliveries. Between the entry and the return of a
call the kernel still holds the old action and each slot is old or new; with the
trampoline unchanged either is an action that should run, with another one the
old trampoline finds its slot empty.
-/

namespace ApeShim.Signal
open Flags Trace

/-! ## What is claimed of a change -/

/-- What an action is meant to run. -/
def LinAction.runs (k : SigHost) (a : LinAction) (sig : Int) : Ran :=
  match a.handler with
  | .dfl => .default
  | .ign => .ignored
  | .err => .error
  | .user h => if a.siginfo then .info h (sigToLinux k sig) else .plain h (sigToLinux k sig)

/-- The action in force after a history, newest first: the one given to the last
successful call, back at SIG_DFL if it was SA_RESETHAND and has been used. -/
def inForce (inherited : Int → Bool) (sig : Int) : List SigObs → LinAction
  | [] => ⟨if inherited sig then .ign else .dfl, 0, 0⟩
  | .installed sig' a :: older => if sig' = sig then a else inForce inherited sig older
  | .reset sig' :: older =>
      if sig' = sig then { inForce inherited sig older with handler := .dfl }
      else inForce inherited sig older
  | _ :: older => inForce inherited sig older

/-- Every old action handed back had the handler then in force. -/
def Reported (inherited : Int → Bool) : List SigObs → Prop
  | [] => True
  | .reported sig old :: older =>
      old.handler = (inForce inherited sig older).handler ∧ Reported inherited older
  | _ :: older => Reported inherited older

def Phase.call : Phase → Option Call
  | .idle => none
  | .entered c | .half c _ | .asking c | .refused c | .restoring c => some c

/-- A signal delivered now runs the action in force or the one being installed;
a call that fails leaves arrays and kernel as they were; what was reported as
old was in force. -/
structure AtomicSwitch (k : SigHost) (inherited : Int → Bool) (s : SigState) (log : List SigObs) :
    Prop where
  delivery : ∀ sig, s.tables.deliver k sig = (inForce inherited sig log).runs k sig ∨
    ∃ c a, s.phase.call = some c ∧ c.sig = sig ∧ c.act = some a ∧
      s.tables.deliver k sig = a.runs k sig
  failing : ∀ l s' out c, sigStep k s l = some (s', out) → .failed c ∈ out → s'.tables = c.entry
  reports : Reported inherited log

/-- A handler of the program is replaced only by one of the same kind. -/
def SameKind (k : SigHost) (s : SigState) : SigLabel → Prop
  | .call linSig act _ => ∀ a ∈ act,
      (s.tables.kernel (sigToHost k linSig)).handler.isTramp = true →
        a.hostHandler = (s.tables.kernel (sigToHost k linSig)).handler
  | _ => True

/-! ## Tables that stand for an action -/

/-- The kernel and, behind a trampoline, the slot stand for the action `a`. -/
def Tables.Backs (t : Tables) (sig : Int) (a : LinAction) : Prop :=
  match (t.kernel sig).handler with
  | .dfl => a.handler = .dfl
  | .ign => a.handler = .ign
  | .err => a.handler = .err
  | .tramp1 => hasSlot sig = true ∧ ∃ h, t.h1 sig = some h ∧ a.handler = .user h ∧ a.siginfo = false
  | .tramp3 => hasSlot sig = true ∧ ∃ h, t.h3 sig = some h ∧ a.handler = .user h ∧ a.siginfo = true

theorem Tables.Backs.deliver {t : Tables} {sig : Int} {a : LinAction} (h : t.Backs sig a)
    (k : SigHost) : t.deliver k sig = a.runs k sig := by
  unfold Tables.Backs at h
  unfold Tables.deliver LinAction.runs
  cases hk : (t.kernel sig).handler with
  | tramp1 =>
    rw [hk] at h
    obtain ⟨-, u, hu, ha, hs⟩ := h
    simp [hu, ha, hs]
  | tramp3 =>
    rw [hk] at h
    obtain ⟨-, u, hu, ha, hs⟩ := h
    simp [hu, ha, hs]
  | _ =>
    rw [hk] at h
    simp only [h]

/-- `Backs` looks at one signal only. -/
theorem Tables.Backs.congr {t u : Tables} {sig : Int} {a : LinAction} (h : t.Backs sig a)
    (hk : u.kernel sig = t.kernel sig) (h1 : u.h1 sig = t.h1 sig) (h3 : u.h3 sig = t.h3 sig) :
    u.Backs sig a := by
  unfold Tables.Backs at h ⊢
  rw [hk, h1, h3]
  exact h

theorem hostHandler_tramp1 {a : LinAction} (h : a.hostHandler = .tramp1) :
    ∃ u, a.handler = .user u ∧ a.siginfo = false := by
  unfold LinAction.hostHandler at h
  cases hh : a.handler with
  | user u => exact ⟨u, rfl, by simpa [hh] using h⟩
  | _ => simp [hh] at h

theorem hostHandler_tramp3 {a : LinAction} (h : a.hostHandler = .tramp3) :
    ∃ u, a.handler = .user u ∧ a.siginfo = true := by
  unfold LinAction.hostHandler at h
  cases hh : a.handler with
  | user u => exact ⟨u, rfl, by simpa [hh] using h⟩
  | _ => simp [hh] at h

/-- What the two slots hold once `a` is written. -/
def LinAction.slot1 (a : LinAction) : Option Nat :=
  match a.handler with
  | .user h => if a.siginfo then none else some h
  | _ => none

def LinAction.slot3 (a : LinAction) : Option Nat :=
  match a.handler with
  | .user h => if a.siginfo then some h else none
  | _ => none

theorem firstStore_eq (c : Call) (a : LinAction) (t : Tables) :
    c.firstStore a t = t.store1 c.sig a.slot1 ∨ c.firstStore a t = t.store3 c.sig a.slot3 := by
  unfold Call.firstStore LinAction.slot1 LinAction.slot3
  cases a.handler <;> simp
  split <;> simp

theorem stores_eq (c : Call) (a : LinAction) (t : Tables) :
    c.secondStore a (c.firstStore a t) = (t.store1 c.sig a.slot1).store3 c.sig a.slot3 := by
  unfold Call.secondStore Call.firstStore LinAction.slot1 LinAction.slot3
  cases a.handler <;> simp
  split <;> rfl

/-- The tables when the kernel is asked. -/
def Call.written (c : Call) : Tables :=
  match c.act with
  | some a => if hasSlot c.sig then (c.entry.store1 c.sig a.slot1).store3 c.sig a.slot3 else c.entry
  | none => c.entry

theorem Call.written_kernel (c : Call) : c.written.kernel = c.entry.kernel := by
  unfold Call.written
  split
  · split <;> rfl
  · rfl

/-- Between entry and return: the kernel and the other signals are as on entry,
and each of the two slots is as on entry or as the new action has it. -/
structure Between (c : Call) (t : Tables) : Prop where
  kernel : t.kernel = c.entry.kernel
  others : ∀ x, x ≠ c.sig → t.h1 x = c.entry.h1 x ∧ t.h3 x = c.entry.h3 x
  slot1 : t.h1 c.sig = c.entry.h1 c.sig ∨ ∃ a, c.act = some a ∧ t.h1 c.sig = a.slot1
  slot3 : t.h3 c.sig = c.entry.h3 c.sig ∨ ∃ a, c.act = some a ∧ t.h3 c.sig = a.slot3

theorem Between.entry (c : Call) : Between c c.entry :=
  ⟨rfl, fun _ _ => ⟨rfl, rfl⟩, Or.inl rfl, Or.inl rfl⟩

theorem Between.store1 {c : Call} {t : Tables} (h : Between c t) {v : Option Nat}
    (hv : v = c.entry.h1 c.sig ∨ ∃ a, c.act = some a ∧ v = a.slot1) :
    Between c (t.store1 c.sig v) := by
  refine ⟨h.kernel, fun x hx => ⟨?_, (h.others x hx).2⟩, ?_, h.slot3⟩
  · simp only [Tables.store1, Function.update_of_ne hx]
    exact (h.others x hx).1
  · simpa [Tables.store1] using hv

theorem Between.store3 {c : Call} {t : Tables} (h : Between c t) {v : Option Nat}
    (hv : v = c.entry.h3 c.sig ∨ ∃ a, c.act = some a ∧ v = a.slot3) :
    Between c (t.store3 c.sig v) := by
  refine ⟨h.kernel, fun x hx => ⟨(h.others x hx).1, ?_⟩, h.slot1, ?_⟩
  · simp only [Tables.store3, Function.update_of_ne hx]
    exact (h.others x hx).2
  · simpa [Tables.store3] using hv

theorem between_written (c : Call) : Between c c.written := by
  unfold Call.written
  split
  · rename_i a ha
    split
    · exact ((Between.entry c).store1 (Or.inr ⟨a, ha, rfl⟩)).store3 (Or.inr ⟨a, ha, rfl⟩)
    · exact .entry c
  · exact .entry c

/-- With the kind unchanged, a delivery between entry and return runs the action
in force on entry or the new one. -/
theorem Between.deliver {c : Call} {t : Tables} (h : Between c t) (k : SigHost)
    (hkind : ∀ a, c.act = some a → (c.entry.kernel c.sig).handler.isTramp = true →
      a.hostHandler = (c.entry.kernel c.sig).handler) (sig : Int) :
    t.deliver k sig = c.entry.deliver k sig ∨
      ∃ a, c.sig = sig ∧ c.act = some a ∧ t.deliver k sig = a.runs k sig := by
  by_cases hsig : sig = c.sig
  · subst hsig
    unfold Tables.deliver
    rw [h.kernel]
    cases hk : (c.entry.kernel c.sig).handler with
    | tramp1 =>
      rcases h.slot1 with hs | ⟨a, ha, hs⟩
      · exact Or.inl (by rw [hs])
      · have hhost := hkind a ha (by simp [hk, HostHandler.isTramp])
        rw [hk] at hhost
        obtain ⟨u, hu, hinfo⟩ := hostHandler_tramp1 hhost
        exact Or.inr ⟨a, rfl, ha, by simp [hs, LinAction.slot1, LinAction.runs, hu, hinfo]⟩
    | tramp3 =>
      rcases h.slot3 with hs | ⟨a, ha, hs⟩
      · exact Or.inl (by rw [hs])
      · have hhost := hkind a ha (by simp [hk, HostHandler.isTramp])
        rw [hk] at hhost
        obtain ⟨u, hu, hinfo⟩ := hostHandler_tramp3 hhost
        exact Or.inr ⟨a, rfl, ha, by simp [hs, LinAction.slot3, LinAction.runs, hu, hinfo]⟩
    | _ => exact Or.inl rfl
  · obtain ⟨h1, h3⟩ := h.others sig hsig
    refine Or.inl ?_
    unfold Tables.deliver
    rw [h.kernel, h1, h3]

/-! ## The invariant -/

/-- What the tables are in each phase of a call. -/
def Phase.Holds (t : Tables) : Phase → Prop
  | .idle => True
  | .entered c => t = c.entry
  | .half c a => c.act = some a ∧ hasSlot c.sig = true ∧ t = c.firstStore a c.entry
  | .asking c => t = c.written
  | .refused c => hasSlot c.sig = true ∧ t = c.written
  | .restoring c => hasSlot c.sig = true ∧ t = c.written.store1 c.sig c.prev1

def Call.KeepsKind (c : Call) : Prop :=
  ∀ a, c.act = some a → (c.entry.kernel c.sig).handler.isTramp = true →
    a.hostHandler = (c.entry.kernel c.sig).handler

structure SigInv (inherited : Int → Bool) (s : SigState) (log : List SigObs) : Prop where
  /-- the tables, or what they would be without the call, stand for what is in force -/
  backs : ∀ sig, (s.phase.call.elim s.tables Call.entry).Backs sig (inForce inherited sig log)
  holds : s.phase.Holds s.tables
  kind : ∀ c, s.phase.call = some c → c.KeepsKind
  reports : Reported inherited log

theorem SigInv.between {inherited : Int → Bool} {s : SigState} {log : List SigObs}
    (h : SigInv inherited s log) {c : Call} (hc : s.phase.call = some c) : Between c s.tables := by
  have hholds := h.holds
  cases hp : s.phase with
  | idle => rw [hp] at hc; cases hc
  | entered c =>
    rw [hp] at hc hholds
    cases hc
    rw [hholds]
    exact .entry c
  | half c a =>
    rw [hp] at hc hholds
    cases hc
    obtain ⟨ha, -, ht⟩ := hholds
    rw [ht]
    rcases firstStore_eq c a c.entry with hs | hs
    · rw [hs]; exact (Between.entry c).store1 (Or.inr ⟨a, ha, rfl⟩)
    · rw [hs]; exact (Between.entry c).store3 (Or.inr ⟨a, ha, rfl⟩)
  | asking c =>
    rw [hp] at hc hholds
    cases hc
    rw [hholds]
    exact between_written c
  | refused c =>
    rw [hp] at hc hholds
    cases hc
    rw [hholds.2]
    exact between_written c
  | restoring c =>
    rw [hp] at hc hholds
    cases hc
    rw [hholds.2]
    exact (between_written c).store1 (Or.inl (by rw [Call.prev1, if_pos hholds.1]))

/-- The two rollback stores undo the two stores. -/
theorem rolled_back {c : Call} (h : hasSlot c.sig = true) :
    (c.written.store1 c.sig c.prev1).store3 c.sig c.prev3 = c.entry := by
  have h1 : c.prev1 = c.entry.h1 c.sig := by rw [Call.prev1, if_pos h]
  have h3 : c.prev3 = c.entry.h3 c.sig := by rw [Call.prev3, if_pos h]
  rw [h1, h3]
  unfold Call.written
  split
  · rw [if_pos h]
    simp [Tables.store1, Tables.store3, Function.update_idem, Function.update_eq_self]
  · simp [Tables.store1, Tables.store3, Function.update_eq_self]

theorem sigInv_tick {inherited : Int → Bool} {s s' : SigState} {log out : List SigObs}
    (hinv : SigInv inherited s log) (h : tickStep s = some (s', out)) :
    SigInv inherited s' (out ++ log) ∧ ∀ c, .failed c ∈ out → s'.tables = c.entry := by
  obtain ⟨hbacks, hholds, hkind, hrep⟩ := hinv
  unfold tickStep at h
  cases hp : s.phase with
  | idle => rw [hp] at h; cases h
  | entered c =>
    rw [hp] at h hholds hbacks hkind
    cases hact : c.act with
    | none =>
      simp only [hact] at h
      cases h
      refine ⟨⟨hbacks, ?_, hkind, hrep⟩, by simp⟩
      simpa [Phase.Holds, Call.written, hact] using hholds
    | some a =>
      simp only [hact] at h
      split at h
      · rename_i hslot
        cases h
        refine ⟨⟨hbacks, ⟨hact, hslot, ?_⟩, hkind, hrep⟩, by simp⟩
        rw [show s.tables = c.entry from hholds]
      · rename_i hslot
        cases h
        refine ⟨⟨hbacks, ?_, hkind, hrep⟩, by simp⟩
        simpa [Phase.Holds, Call.written, hact, hslot] using hholds
  | half c a =>
    rw [hp] at h hholds hbacks hkind
    cases h
    obtain ⟨hact, hslot, ht⟩ := hholds
    refine ⟨⟨hbacks, ?_, hkind, hrep⟩, by simp⟩
    simp only [Phase.Holds, Call.written, hact, hslot, ↓reduceIte]
    rw [ht, stores_eq]
  | asking c => rw [hp] at h; cases h
  | refused c =>
    rw [hp] at h hholds hbacks hkind
    cases h
    refine ⟨⟨hbacks, ⟨hholds.1, ?_⟩, hkind, hrep⟩, by simp⟩
    rw [hholds.2]
  | restoring c =>
    rw [hp] at h hholds hbacks hkind
    cases h
    have hback : s.tables.store3 c.sig c.prev3 = c.entry := by
      rw [hholds.2]
      exact rolled_back hholds.1
    refine ⟨⟨fun sig => ?_, trivial, fun c hc => (by cases hc), hrep⟩, fun c' hc' => ?_⟩
    · dsimp only [Phase.call, Option.elim]
      rw [hback]
      exact hbacks sig
    · cases List.mem_singleton.mp hc'
      exact hback

/-- The kernel took the action the slots were written for. -/
theorem backs_installed {k : SigHost} {c : Call} {a : LinAction} (hact : c.act = some a)
    (hslot : hasSlot c.sig = true) :
    Tables.Backs { c.written with kernel := Function.update c.written.kernel c.sig (a.toHost k) }
      c.sig a := by
  simp only [Tables.Backs, Function.update_self, LinAction.toHost, LinAction.hostHandler,
    Call.written, hact, hslot, ↓reduceIte, Tables.store1, Tables.store3]
  cases hh : a.handler with
  | user h =>
    cases hs : a.siginfo <;> simp [LinAction.slot1, LinAction.slot3, hh, hs]
  | _ => simp

theorem oldAction_handler {k : SigHost} {c : Call} {a : LinAction} (h : c.entry.Backs c.sig a) :
    (c.oldAction k (c.entry.kernel c.sig)).handler = a.handler := by
  unfold Tables.Backs at h
  unfold Call.oldAction
  cases hk : (c.entry.kernel c.sig).handler with
  | tramp1 =>
    rw [hk] at h
    obtain ⟨hslot, u, hu, ha, -⟩ := h
    simp [Call.prev1, hslot, hu, ha]
  | tramp3 =>
    rw [hk] at h
    obtain ⟨hslot, u, hu, ha, -⟩ := h
    simp [Call.prev3, hslot, hu, ha]
  | _ =>
    rw [hk] at h
    simp [h]

theorem sigInv_answer {k : SigHost} {inherited : Int → Bool} {s s' : SigState} {ok : Bool}
    {log out : List SigObs} (hinv : SigInv inherited s log)
    (h : answerStep k s ok = some (s', out)) :
    SigInv inherited s' (out ++ log) ∧ ∀ c, .failed c ∈ out → s'.tables = c.entry := by
  obtain ⟨hbacks, hholds, hkind, hrep⟩ := hinv
  unfold answerStep at h
  cases hp : s.phase with
  | asking c =>
    rw [hp] at h hholds hbacks hkind
    have ht : s.tables = c.written := hholds
    dsimp only at h
    split at h
    · split at h
      · rename_i hslot
        cases h
        have hkernel : s.tables.kernel c.sig = c.entry.kernel c.sig := by
          rw [ht, Call.written_kernel]
        have hrep' : Reported inherited ((if c.wantOld then
            [SigObs.reported c.sig (c.oldAction k (s.tables.kernel c.sig))] else []) ++ log) := by
          split
          · refine ⟨?_, hrep⟩
            rw [hkernel]
            exact oldAction_handler (hbacks c.sig)
          · exact hrep
        have hforce : ∀ sig, inForce inherited sig ((if c.wantOld then
            [SigObs.reported c.sig (c.oldAction k (s.tables.kernel c.sig))] else []) ++ log) =
            inForce inherited sig log := by
          intro sig
          split <;> rfl
        cases hact : c.act with
        | none =>
          have htables : s.tables = c.entry := by rw [ht, Call.written, hact]
          refine ⟨⟨fun sig => ?_, trivial, fun c hc => (by cases hc), hrep'⟩, by split <;> simp⟩
          simp only [Phase.call, Option.elim_none, List.nil_append, hforce sig]
          rw [htables]
          exact hbacks sig
        | some a =>
          refine ⟨⟨fun sig => ?_, trivial, fun c hc => (by cases hc), hrep'⟩, by split <;> simp⟩
          simp only [Phase.call, Option.elim_none, Option.elim_some, List.cons_append,
            List.nil_append, inForce, hforce sig]
          rw [ht]
          split
          · rename_i hsig
            subst hsig
            exact backs_installed hact hslot
          · rename_i hsig
            have hne : sig ≠ c.sig := fun he => hsig he.symm
            obtain ⟨h1, h3⟩ := (between_written c).others sig hne
            refine (hbacks sig).congr ?_ h1 h3
            dsimp only
            rw [Function.update_of_ne hne, Call.written_kernel]
            rfl
      · cases h
    · split at h
      · rename_i hact
        cases h
        simp only [Bool.and_eq_true] at hact
        exact ⟨⟨hbacks, ⟨hact.2, ht⟩, hkind, hrep⟩, by simp⟩
      · rename_i hact
        cases h
        -- nothing was written
        have htables : s.tables = c.entry := by
          rw [ht, Call.written]
          split
          · rename_i a ha
            rw [if_neg]
            simpa [ha] using hact
          · rfl
        refine ⟨⟨fun sig => ?_, trivial, fun c hc => (by cases hc), hrep⟩, fun c' hc' => ?_⟩
        · dsimp only [Phase.call, Option.elim]
          rw [htables]
          exact hbacks sig
        · cases List.mem_singleton.mp hc'
          exact htables
  | _ => rw [hp] at h; cases h

/-! ## Deliveries -/

theorem backs_reset {t : Tables} {inherited : Int → Bool} {log : List SigObs}
    (h : ∀ sig, t.Backs sig (inForce inherited sig log)) (sig : Int) (r : Ran) (x : Int) :
    (t.reset sig).Backs x (inForce inherited x ([.reset sig, .ran sig r] ++ log)) := by
  simp only [List.cons_append, List.nil_append, inForce]
  split
  · rename_i hx
    subst hx
    simp [Tables.Backs, Tables.reset]
  · rename_i hx
    refine (h x).congr ?_ rfl rfl
    simp only [Tables.reset]
    rw [Function.update_of_ne (fun he => hx he.symm)]

theorem firstStore_reset (c : Call) (a : LinAction) (t : Tables) (sig : Int) :
    (c.firstStore a t).reset sig = c.firstStore a (t.reset sig) := by
  rcases ha : a.handler <;> simp only [Call.firstStore, ha]
  case user h => split <;> rfl
  all_goals rfl

theorem written_reset (c : Call) (sig : Int) :
    c.written.reset sig = { c with entry := c.entry.reset sig : Call }.written := by
  cases hact : c.act with
  | none => simp [Call.written, hact]
  | some a =>
    simp only [Call.written, hact]
    split <;> rfl

theorem holds_reset {t : Tables} {p : Phase} (h : p.Holds t) (sig : Int) :
    (p.mapEntry fun u => u.reset sig).Holds (t.reset sig) := by
  cases p with
  | idle => trivial
  | entered c => exact congrArg (fun u => u.reset sig) h
  | half c a =>
    obtain ⟨hact, hslot, rfl⟩ := h
    exact ⟨hact, hslot, firstStore_reset c a c.entry sig⟩
  | asking c =>
    have ht : t = c.written := h
    rw [ht]
    exact written_reset c sig
  | refused c =>
    obtain ⟨hslot, rfl⟩ := h
    exact ⟨hslot, written_reset c sig⟩
  | restoring c =>
    obtain ⟨hslot, rfl⟩ := h
    refine ⟨hslot, ?_⟩
    rw [← written_reset c sig]
    rfl

theorem mapEntry_call (f : Tables → Tables) (p : Phase) :
    (p.mapEntry f).call = p.call.map fun c => { c with entry := f c.entry } := by
  cases p <;> rfl

theorem sigInv_deliver {k : SigHost} {inherited : Int → Bool} {s s' : SigState} {sig : Int}
    {log out : List SigObs} (hinv : SigInv inherited s log)
    (h : sigStep k s (.deliver sig) = some (s', out)) : SigInv inherited s' (out ++ log) := by
  simp only [sigStep] at h
  split at h
  · cases h
    refine ⟨fun x => ?_, holds_reset hinv.holds sig, fun c hc => ?_, hinv.reports⟩
    · dsimp only
      rw [mapEntry_call]
      have hb := hinv.backs
      cases hc : s.phase.call with
      | none =>
        rw [hc] at hb
        exact backs_reset hb sig _ x
      | some c =>
        rw [hc] at hb
        exact backs_reset hb sig _ x
    · dsimp only at hc
      rw [mapEntry_call] at hc
      obtain ⟨c₀, hc₀, rfl⟩ := Option.map_eq_some_iff.mp hc
      intro a ha htramp
      dsimp only [Tables.reset] at htramp ⊢
      rw [Function.update_apply] at htramp ⊢
      split at htramp
      · cases htramp
      · rename_i hne
        rw [if_neg hne]
        exact hinv.kind c₀ hc₀ a ha htramp
  · cases h
    exact ⟨hinv.backs, hinv.holds, hinv.kind, hinv.reports⟩

theorem sigInv_step {k : SigHost} {inherited : Int → Bool} {s s' : SigState} {l : SigLabel}
    {log out : List SigObs} (hinv : SigInv inherited s log) (hkind : SameKind k s l)
    (h : sigStep k s l = some (s', out)) : SigInv inherited s' (out ++ log) := by
  cases l with
  | call linSig act wantOld =>
    simp only [sigStep] at h
    split at h
    · rename_i hidle
      cases h
      have hb := hinv.backs
      rw [hidle] at hb
      refine ⟨hb, rfl, fun c hc => ?_, hinv.reports⟩
      cases hc
      exact hkind
    · cases h
  | tick => exact (sigInv_tick hinv h).1
  | answer ok => exact (sigInv_answer hinv h).1
  | deliver sig => exact sigInv_deliver hinv h

theorem failed_restores {k : SigHost} {inherited : Int → Bool} {s s' : SigState} {l : SigLabel}
    {log out : List SigObs} {c : Call} (hinv : SigInv inherited s log)
    (h : sigStep k s l = some (s', out)) (hm : .failed c ∈ out) : s'.tables = c.entry := by
  cases l with
  | call linSig act wantOld =>
    simp only [sigStep] at h
    split at h <;> cases h
    cases hm
  | tick => exact (sigInv_tick hinv h).2 c hm
  | answer ok => exact (sigInv_answer hinv h).2 c hm
  | deliver sig =>
    simp only [sigStep] at h
    split at h <;> cases h <;> simp at hm

/-- **Changing a disposition is atomic to deliveries** in every run in which a
handler of the program is replaced only by one of the same kind: plain by plain,
SA_SIGINFO by SA_SIGINFO. -/
theorem disposition_switch_atomic (k : SigHost) (inherited : Int → Bool) {s : SigState}
    {log : List SigObs} (h : (sigMachine k inherited).Run (SameKind k) s log) :
    AtomicSwitch k inherited s log := by
  have hinv : SigInv inherited s log := by
    refine h.invariant (P := SigInv inherited) ?_ fun s log l s' out hinv hok hs =>
      sigInv_step hinv hok hs
    refine ⟨fun sig => ?_, trivial, fun c hc => (by cases hc), trivial⟩
    simp only [sigMachine, Phase.call, Option.elim_none, Tables.Backs, inForce]
    cases inherited sig <;> rfl
  refine ⟨fun sig => ?_, fun l s' out c hs hm => failed_restores hinv hs hm, hinv.reports⟩
  have hb := hinv.backs sig
  cases hc : s.phase.call with
  | none =>
    rw [hc] at hb
    exact Or.inl (hb.deliver k)
  | some c =>
    rw [hc] at hb
    rcases (hinv.between hc).deliver k (hinv.kind c hc) sig with hd | ⟨a, hsig, hact, hd⟩
    · exact Or.inl (hd.trans (hb.deliver k))
    · exact Or.inr ⟨c, a, rfl, hsig, hact, hd⟩

/-- A host with Linux's numbers and no flags. -/
def plainSignals : SigHost := ⟨[], [], 0⟩

/-- A plain handler is installed, replaced by another, and the signal arrives
before the kernel is asked. -/
theorem disposition_switch_atomic_plain :
    ∃ s log, (sigMachine plainSignals fun _ => false).Run (SameKind plainSignals) s log ∧
      s.tables.deliver plainSignals 10 = .plain 8 10 ∧
      AtomicSwitch plainSignals (fun _ => false) s log := by
  have hstart : (sigMachine plainSignals fun _ => false).Run (SameKind plainSignals) _ [] := .start
  have hfirst := Machine.Run.next (a := SigLabel.call 10 (some ⟨.user 7, 0, 0⟩) true) hstart
    (fun _ _ ht => (by cases ht)) rfl
  have hhalf := Machine.Run.next (a := SigLabel.tick) hfirst trivial rfl
  have hwritten := Machine.Run.next (a := SigLabel.tick) hhalf trivial rfl
  have hdone := Machine.Run.next (a := SigLabel.answer true) hwritten trivial rfl
  have hsecond := Machine.Run.next (a := SigLabel.call 10 (some ⟨.user 8, 0, 0⟩) true) hdone
    (fun a ha _ => (by cases ha; rfl)) rfl
  have hnew := Machine.Run.next (a := SigLabel.tick) hsecond trivial rfl
  exact ⟨_, _, hnew, rfl, disposition_switch_atomic _ _ hnew⟩

/-- A plain handler is being replaced by SIG_DFL. Its slot is cleared first, and
a signal that arrives before the kernel is told runs the trampoline with no
handler: neither the old disposition nor the new. -/
theorem delivery_runs_neither :
    ∃ s log, (sigMachine plainSignals fun _ => false).Run anyStep s log ∧
      s.tables.deliver plainSignals 10 = .nothing ∧ ¬ AtomicSwitch plainSignals (fun _ => false) s log := by
  have hstart : (sigMachine plainSignals fun _ => false).Run anyStep _ [] := .start
  obtain ⟨s, log, hrun, hp⟩ := hstart.extend (fun _ _ => true) (fun _ _ _ => trivial)
    [.call 10 (some ⟨.user 7, 0, 0⟩) false, .tick, .tick, .answer true,
      .call 10 (some ⟨.dfl, 0, 0⟩) false, .tick]
    (fun s log => decide (s.tables.deliver plainSignals 10 = .nothing) &&
      (s.phase.call.all fun c => c.act = some ⟨.dfl, 0, 0⟩) &&
      decide (inForce (fun _ => false) 10 log = ⟨.user 7, 0, 0⟩)) (by decide)
  simp only [Bool.and_eq_true, decide_eq_true_eq] at hp
  obtain ⟨⟨hnothing, hcall⟩, hforce⟩ := hp
  refine ⟨s, log, hrun, hnothing, fun hswitch => ?_⟩
  rcases hswitch.delivery 10 with hd | ⟨c, a, hc, -, hact, hd⟩
  · rw [hnothing, hforce] at hd
    cases hd
  · rw [hc] at hcall
    simp only [Option.all_some, hact, Option.some.injEq, decide_eq_true_eq] at hcall
    rw [hnothing, hcall] at hd
    cases hd

end ApeShim.Signal
