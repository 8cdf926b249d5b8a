import ApeShim.Packet.Table
import Mathlib.Algebra.Order.BigOperators.Group.Finset

/-!
What holds of the table of packet sockets along every run whose binds find no second
socket in the entry, and whose receiving calls can retire the second socket when it gives
junk: the second sockets are closed once, `g_pkt_live` counts the entries, and the sockets
of an entry take turns.
-/

namespace ApeShim.Packet
open State Trace

/-! ## What should hold -/

/-- The first choice of an entry's last call, if it had both sockets, before and after. -/
def lastFirst (i : Fin PKT_MAX) : List Obs → Option Bool
  | [] => none
  | .call c :: log =>
      if c.slot = i then (if c.both && c.kept then some c.first else none) else lastFirst i log
  | .taken j :: log => if j = i then none else lastFirst i log
  | _ :: log => lastFirst i log

theorem lastFirst_call_ne {i : Fin PKT_MAX} {c : Call} (h : c.slot ≠ i) (log : List Obs) :
    lastFirst i (.call c :: log) = lastFirst i log := if_neg h

theorem lastFirst_call_self (c : Call) (log : List Obs) :
    lastFirst c.slot (.call c :: log) = if c.both && c.kept then some c.first else none := if_pos rfl

/-- Of two successive calls on an entry with both sockets, the second asks the other first. -/
def Alternates : List Obs → Prop
  | [] => True
  | .call c :: log => (c.both = true → lastFirst c.slot log ≠ some c.first) ∧ Alternates log
  | _ :: log => Alternates log

/-- The opening is that of a second socket some entry has. -/
def State.Holds (s : State) (k : Nat) : Prop :=
  ∃ i fd d, s.holds i = some fd ∧ s.fds fd = some d ∧ d.opening = k

def State.entries (s : State) : Int := ∑ i, if (s.slots i).isSome then 1 else 0

structure Sound (s : State) (log : List Obs) : Prop where
  frames : ∀ c, .call c ∈ log → ∀ b sll, c.answer = .frame b sll →
    ∃ d ∈ c.from4 ++ c.from6, IsFrame b d
  retires : ∀ c, .call c ∈ log → (∃ d ∈ c.from6, Junk d) → c.kept = false
  once : ∀ k, .opened6 k ∈ log →
    (log.count (.closed6 k) = 1 ∧ ¬ s.Holds k) ∨ (log.count (.closed6 k) = 0 ∧ s.Holds k)
  reaps : ∀ i p, s.slots i = some p → s.fdIs p.fd p.handle = false → s.reapLocked.1.slots i = none
  live : s.live = s.entries
  turns : Alternates log

/-! ## The condition -/

/-- The bind puts what it has for a second socket in the entry. -/
def GetsThrough (addr : Option Int) (adapter : Option Adapter) : Prop :=
  (∃ ifindex ∈ addr, 0 < ifindex) ∧
    ∃ a ∈ adapter, a.v4 = some (.ok ()) ∨ ∃ fd6 handle, a.v6 = some (some (fd6, handle, true))

/-- A bind that gets through finds no second socket in the entry; and when a call on one
with both sockets can get junk from the second, what is queued is clear. -/
def Clean (s : State) : Label → Prop
  | .bind fd addr adapter => GetsThrough addr adapter →
      ∀ i p, s.packetIs.1.findLocked fd = some (i, p) → p.fd6 = none
  | .recv fd n _ => ∀ i p fd6, s.packetIs.1.findLocked fd = some (i, p) → p.fd6 = some fd6 →
      ETH_HLEN < n →
      Clear (n - ETH_HLEN) p.turn (s.packetIs.1.queues p.fd) (s.packetIs.1.queues fd6)
  | _ => True

/-! ## Logs -/

/-- Only second sockets are opened and closed. -/
def Quiet (out : List Obs) : Prop := ∀ o ∈ out, (∃ k, o = .opened6 k) ∨ ∃ k, o = .closed6 k

theorem Quiet.nil : Quiet [] := by nofun

theorem Quiet.append {a b : List Obs} (ha : Quiet a) (hb : Quiet b) : Quiet (a ++ b) := by
  intro o ho
  rcases List.mem_append.mp ho with ho | ho
  · exact ha o ho
  · exact hb o ho

theorem Quiet.keeps {out : List Obs} (h : Quiet out) (log : List Obs) :
    (∀ i, lastFirst i (out ++ log) = lastFirst i log) ∧ (Alternates (out ++ log) ↔ Alternates log) ∧
      ∀ c, .call c ∈ out ++ log ↔ .call c ∈ log := by
  induction out with
  | nil => exact ⟨fun _ => rfl, Iff.rfl, fun _ => Iff.rfl⟩
  | cons o out ih =>
    obtain ⟨hfirst, halt, hcall⟩ := ih fun x hx => h x (List.mem_cons_of_mem _ hx)
    rcases h o List.mem_cons_self with ⟨k, rfl⟩ | ⟨k, rfl⟩
    · exact ⟨hfirst, halt, fun c => by rw [List.cons_append, List.mem_cons, or_iff_right (by nofun), hcall]⟩
    · exact ⟨hfirst, halt, fun c => by rw [List.cons_append, List.mem_cons, or_iff_right (by nofun), hcall]⟩

/-! ## The table along a run -/

structure Sane (s : State) (log : List Obs) : Prop where
  table : Table s.fds s.openings s.holds log
  first : ∀ i p d, s.slots i = some p → s.fds p.fd = some d → d.secondary = false
  live : s.live = s.entries

/-- An entry's turn is the other one's than in its last call. -/
def Turned (s : State) (log : List Obs) : Prop :=
  ∀ i f p, lastFirst i log = some f → s.slots i = some p → p.turn = !f

@[simp] theorem holds_setSlot (s : State) (i : Fin PKT_MAX) (q : Option PktSock) :
    (s.setSlot i q).holds = Function.update s.holds i (q.bind PktSock.fd6) := by
  funext j
  by_cases hj : j = i
  · subst hj
    simp [holds, setSlot]
  · simp [holds, setSlot, Function.update_of_ne hj]

theorem entries_setSlot (s : State) (i : Fin PKT_MAX) (q : Option PktSock) :
    (s.setSlot i q).entries + (if (s.slots i).isSome then 1 else 0) =
      s.entries + if q.isSome then 1 else 0 := by
  have hrest : ∀ f : Fin PKT_MAX → Option PktSock, (∀ j ≠ i, f j = s.slots j) →
      ∑ j, (if (f j).isSome then (1 : Int) else 0) = (if (f i).isSome then 1 else 0) +
        ∑ j ∈ Finset.univ.erase i, if (s.slots j).isSome then 1 else 0 := by
    intro f hf
    rw [← Finset.add_sum_erase _ _ (Finset.mem_univ i)]
    refine congrArg₂ _ rfl (Finset.sum_congr rfl fun j hj => ?_)
    rw [hf j (Finset.ne_of_mem_erase hj)]
  have hset := hrest (s.setSlot i q).slots fun j hj => Function.update_of_ne hj _ _
  have hself := hrest s.slots fun _ _ => rfl
  have hi : (s.setSlot i q).slots i = q := Function.update_self _ _ _
  rw [hi] at hset
  simp only [entries, hset, hself]
  omega

theorem entries_eq_zero {s : State} (h : s.entries = 0) (i : Fin PKT_MAX) : s.slots i = none := by
  have hall := (Finset.sum_eq_zero_iff_of_nonneg (fun j _ => by split <;> decide)).mp h
  have hi := hall i (Finset.mem_univ i)
  cases hs : s.slots i with
  | none => rfl
  | some p => simp [hs] at hi

theorem setSlot_slots {s : State} {i j : Fin PKT_MAX} {q : Option PktSock} {p : PktSock}
    (h : (s.setSlot i q).slots j = some p) : (j = i ∧ q = some p) ∨ (j ≠ i ∧ s.slots j = some p) := by
  by_cases hj : j = i
  · subst hj
    exact Or.inl ⟨rfl, by simpa [setSlot] using h⟩
  · exact Or.inr ⟨hj, by simpa [setSlot, Function.update_of_ne hj] using h⟩

/-- What reaping leaves: some of the entries, and every descriptor but second sockets. -/
structure Shrinks (s s' : State) : Prop where
  slots : ∀ i p, s'.slots i = some p → s.slots i = some p
  fds : ∀ fd d, s.fds fd = some d → d.secondary = false → s'.fds fd = some d
  back : ∀ fd d, s'.fds fd = some d → s.fds fd = some d

theorem Shrinks.refl (s : State) : Shrinks s s := ⟨fun _ _ h => h, fun _ _ h _ => h, fun _ _ h => h⟩

theorem Shrinks.trans {a b c : State} (h : Shrinks a b) (h' : Shrinks b c) : Shrinks a c :=
  ⟨fun i p hp => h.slots i p (h'.slots i p hp), fun fd d hd hsec => h'.fds fd d (h.fds fd d hd hsec) hsec,
    fun fd d hd => h.back fd d (h'.back fd d hd)⟩

theorem fdIs_iff {s : State} {fd handle : Int} :
    s.fdIs fd handle = true ↔ ∃ d, s.fds fd = some d ∧ d.handle = handle := by
  rw [fdIs, Option.any_eq_true]
  simp

/-- An entry whose descriptor is there keeps it through reaping. -/
theorem Shrinks.fdIs {s s' : State} {log : List Obs} (h : Shrinks s s') (hs : Sane s log)
    {i : Fin PKT_MAX} {p : PktSock} (hp : s.slots i = some p) (hfd : s.fdIs p.fd p.handle = true) :
    s'.fdIs p.fd p.handle = true := by
  obtain ⟨d, hd, hhandle⟩ := fdIs_iff.mp hfd
  exact fdIs_iff.mpr ⟨d, h.fds _ d hd (hs.first i p d hp hd), hhandle⟩

variable {s : State} {log : List Obs}

theorem closeSecond_eq {fd : Int} {d : Descriptor} (hd : s.fds fd = some d) :
    s.closeSecond fd = (s.closeFd fd, [.closed6 d.opening]) := by
  rw [closeSecond, hd]

/-- Emptying an entry that has no second socket. -/
theorem Sane.emptied (hs : Sane s log) {i : Fin PKT_MAX} {p : PktSock} (hp : s.slots i = some p)
    (hnone : p.fd6 = none) : Sane { s.setSlot i none with live := s.live - 1 } log := by
  have hholds : s.holds i = none := by rw [holds, hp, Option.bind_some, hnone]
  refine ⟨?_, ?_, ?_⟩
  · have := hs.table
    rw [← Function.update_eq_self i s.holds, hholds] at this
    exact (holds_setSlot s i none).symm ▸ this
  · intro j q d hj hd
    rcases setSlot_slots hj with ⟨-, hq⟩ | ⟨-, hq⟩
    · cases hq
    · exact hs.first j q d hq hd
  · have := entries_setSlot s i none
    rw [hp] at this
    have hlive := hs.live
    simp only [Option.isSome_some, Option.isSome_none, if_true] at this
    show s.live - 1 = (s.setSlot i none).entries
    simp at this
    omega

/-- Closing the second socket of an entry, which keeps the rest of it. -/
theorem Sane.dropped (hs : Sane s log) {i : Fin PKT_MAX} {p q : PktSock} {fd6 : Int} {d : Descriptor}
    (hp : s.slots i = some p) (hfd6 : p.fd6 = some fd6) (hd : s.fds fd6 = some d) (hq : q.fd = p.fd)
    (hnone : q.fd6 = none) : Sane ((s.closeFd fd6).setSlot i (some q)) (.closed6 d.opening :: log) := by
  have hholds : s.holds i = some fd6 := by rw [holds, hp, Option.bind_some, hfd6]
  refine ⟨?_, ?_, ?_⟩
  · have := hs.table.closedSecond hholds hd
    rw [holds_setSlot]
    rw [Option.bind_some, hnone]
    exact this
  · intro j r e hj he
    have hold : ∃ r', s.slots j = some r' ∧ r'.fd = r.fd := by
      rcases setSlot_slots hj with ⟨rfl, hr⟩ | ⟨-, hr⟩
      · cases hr
        exact ⟨p, hp, hq.symm⟩
      · exact ⟨r, hr, rfl⟩
    obtain ⟨r', hr', hfd⟩ := hold
    rcases Table.of_update_some he with ⟨-, hno⟩ | ⟨-, he⟩
    · cases hno
    · exact hs.first j r' e hr' (hfd ▸ he)
  · have := entries_setSlot (s.closeFd fd6) i (some q)
    have hslot : (s.closeFd fd6).slots i = some p := hp
    rw [hslot] at this
    have hlive := hs.live
    simp only [Option.isSome_some, if_true] at this
    have hent : (s.closeFd fd6).entries = s.entries := rfl
    show s.live = _
    omega

/-! ## Reaping -/

/-- What one pass or several make of a sane table. -/
structure Reaped (log : List Obs) (s : State) (r : State × List Obs) : Prop where
  sane : Sane r.1 (r.2 ++ log)
  shrinks : Shrinks s r.1
  quiet : Quiet r.2

theorem reapSlot_reaped (hs : Sane s log) (i : Fin PKT_MAX) :
    Reaped log s (s.reapSlot i) ∧
      ∀ p, (s.reapSlot i).1.slots i = some p → (s.reapSlot i).1.fdIs p.fd p.handle = true := by
  cases hi : s.slots i with
  | none =>
    have heq : s.reapSlot i = (s, []) := by rw [reapSlot, hi]
    rw [heq]
    refine ⟨⟨hs, Shrinks.refl s, Quiet.nil⟩, fun p hp => ?_⟩
    rw [hi] at hp
    cases hp
  | some p =>
    by_cases hfd : s.fdIs p.fd p.handle = true
    · have heq : s.reapSlot i = (s, []) := by rw [reapSlot, hi]; exact if_pos hfd
      rw [heq]
      refine ⟨⟨hs, Shrinks.refl s, Quiet.nil⟩, fun q hq => ?_⟩
      rw [hi] at hq
      cases hq
      exact hfd
    · cases hfd6 : p.fd6 with
      | none =>
        have heq : s.reapSlot i = ({ s.setSlot i none with live := s.live - 1 }, []) := by
          rw [reapSlot, hi]
          simp only [if_neg hfd, hfd6]
        rw [heq]
        refine ⟨⟨hs.emptied hi hfd6, ⟨?_, fun _ _ h _ => h, fun _ _ h => h⟩, Quiet.nil⟩, ?_⟩
        · intro j q hq
          rcases setSlot_slots hq with ⟨-, hno⟩ | ⟨-, hq⟩
          · cases hno
          · exact hq
        · intro q hq
          rcases setSlot_slots hq with ⟨-, hno⟩ | ⟨hne, -⟩
          · cases hno
          · exact absurd rfl hne
      | some fd6 =>
        obtain ⟨d, hd, hsec⟩ := hs.table.second i fd6 (by rw [holds, hi, Option.bind_some, hfd6])
        have heq : s.reapSlot i =
            ({ (s.closeFd fd6).setSlot i none with live := s.live - 1 }, [.closed6 d.opening]) := by
          rw [reapSlot, hi]
          simp only [if_neg hfd, hfd6, closeSecond_eq hd]
          rfl
        rw [heq]
        -- first the socket, then the entry
        have hdrop := hs.dropped hi hfd6 hd (q := { p with fd6 := none }) rfl rfl
        have hslot : ((s.closeFd fd6).setSlot i (some { p with fd6 := none })).slots i =
            some { p with fd6 := none } := Function.update_self _ _ _
        have hempty := hdrop.emptied hslot rfl
        have hsame : ({ ((s.closeFd fd6).setSlot i (some { p with fd6 := none })).setSlot i none with
            live := s.live - 1 } : State) =
            { (s.closeFd fd6).setSlot i none with live := s.live - 1 } := by
          simp only [setSlot, Function.update_idem]
        refine ⟨⟨hsame ▸ hempty, ⟨?_, ?_, ?_⟩, ?_⟩, ?_⟩
        · intro j q hq
          rcases setSlot_slots hq with ⟨-, hno⟩ | ⟨-, hq⟩
          · cases hno
          · exact hq
        · intro fd e he hsec'
          have hne : fd ≠ fd6 := by
            rintro rfl
            rw [hd] at he
            cases he
            rw [hsec] at hsec'
            cases hsec'
          exact (Function.update_of_ne hne _ _).trans he
        · intro fd e he
          rcases Table.of_update_some he with ⟨-, hno⟩ | ⟨-, he⟩
          · cases hno
          · exact he
        · intro o ho
          exact Or.inr ⟨d.opening, List.mem_singleton.mp ho⟩
        · intro q hq
          rcases setSlot_slots hq with ⟨-, hno⟩ | ⟨hne, -⟩
          · cases hno
          · exact absurd rfl hne

theorem reapFrom_reaped (hs : Sane s log) (is : List (Fin PKT_MAX)) :
    Reaped log s (reapFrom is s) ∧
      ∀ i ∈ is, ∀ p, (reapFrom is s).1.slots i = some p → (reapFrom is s).1.fdIs p.fd p.handle = true := by
  induction is generalizing s log with
  | nil => exact ⟨⟨hs, Shrinks.refl s, Quiet.nil⟩, by nofun⟩
  | cons i is ih =>
    obtain ⟨hone, hthere⟩ := reapSlot_reaped hs i
    obtain ⟨hrest, hothers⟩ := ih hone.sane
    refine ⟨⟨?_, hone.shrinks.trans hrest.shrinks, hrest.quiet.append hone.quiet⟩, ?_⟩
    · rw [reapFrom, List.append_assoc]
      exact hrest.sane
    · intro j hj p hp
      rcases List.mem_cons.mp hj with rfl | hj
      · have hp' := hrest.shrinks.slots j p hp
        exact hrest.shrinks.fdIs hone.sane hp' (hthere p hp')
      · exact hothers j hj p hp

/-- After reaping, the descriptor of every entry is there. -/
theorem reapLocked_reaped (hs : Sane s log) : Reaped log s s.reapLocked ∧
    ∀ i p, s.reapLocked.1.slots i = some p → s.reapLocked.1.fdIs p.fd p.handle = true := by
  obtain ⟨hreaped, hthere⟩ := reapFrom_reaped hs (List.finRange PKT_MAX)
  exact ⟨hreaped, fun i p => hthere i (List.mem_finRange i) p⟩

theorem packetIs_reaped (hs : Sane s log) : Reaped log s s.packetIs ∧
    ∀ i p, s.packetIs.1.slots i = some p → s.packetIs.1.fdIs p.fd p.handle = true := by
  rw [packetIs]
  split
  · rename_i hlive
    refine ⟨⟨hs, Shrinks.refl s, Quiet.nil⟩, fun i p hp => ?_⟩
    rw [entries_eq_zero (hs.live ▸ hlive) i] at hp
    cases hp
  · exact reapLocked_reaped hs

/-- An entry whose descriptor is gone does not outlive reaping. -/
theorem reapLocked_gone (hs : Sane s log) {i : Fin PKT_MAX} {p : PktSock} (hp : s.slots i = some p)
    (hfd : s.fdIs p.fd p.handle = false) : s.reapLocked.1.slots i = none := by
  obtain ⟨hreaped, hthere⟩ := reapLocked_reaped hs
  cases hq : s.reapLocked.1.slots i with
  | none => rfl
  | some q =>
    have hold := hreaped.shrinks.slots i q hq
    rw [hp] at hold
    cases hold
    obtain ⟨d, hd, hhandle⟩ := fdIs_iff.mp (hthere i p hq)
    rw [fdIs_iff.mpr ⟨d, hreaped.shrinks.back _ d hd, hhandle⟩] at hfd
    cases hfd

/-! ## One step -/

/-- Everything that a run keeps. -/
structure Inv (s : State) (log : List Obs) : Prop where
  sane : Sane s log
  turned : Turned s log
  frames : ∀ c, .call c ∈ log → ∀ b sll, c.answer = .frame b sll →
    ∃ d ∈ c.from4 ++ c.from6, IsFrame b d
  retires : ∀ c, .call c ∈ log → (∃ d ∈ c.from6, Junk d) → c.kept = false
  turns : Alternates log

/-- What is left of the entries keeps its turn, and quiet steps tell of no calls. -/
theorem Inv.quiet (h : Inv s log) {s' : State} {out : List Obs} (hq : Quiet out)
    (hsane : Sane s' (out ++ log))
    (hslots : ∀ i p, s'.slots i = some p → ∃ p', s.slots i = some p' ∧ p'.turn = p.turn) :
    Inv s' (out ++ log) := by
  obtain ⟨hfirst, halt, hcall⟩ := hq.keeps log
  refine ⟨hsane, ?_, fun c hc => h.frames c ((hcall c).mp hc), fun c hc => h.retires c ((hcall c).mp hc),
    halt.mpr h.turns⟩
  intro i f p hf hp
  obtain ⟨p', hp', hturn⟩ := hslots i p hp
  rw [hfirst] at hf
  rw [← hturn]
  exact h.turned i f p' hf hp'

/-- A change that nothing is seen of. -/
theorem Inv.silent (h : Inv s log) {s' : State} (hsane : Sane s' log)
    (hslots : ∀ i p, s'.slots i = some p → ∃ p', s.slots i = some p' ∧ p'.turn = p.turn) :
    Inv s' log := by
  have hq : Quiet ([] : List Obs) := Quiet.nil
  have := h.quiet hq hsane hslots
  exact this

theorem Reaped.inv (h : Inv s log) {r : State × List Obs} (hr : Reaped log s r) :
    Inv r.1 (r.2 ++ log) :=
  h.quiet hr.quiet hr.sane fun i p hp => ⟨p, hr.shrinks.slots i p hp, rfl⟩

theorem Sane.openFd (hs : Sane s log) {fd : Int} (handle : Int) (hfree : s.fds fd = none) :
    Sane (s.openFd fd handle false) log := by
  refine ⟨hs.table.opened hfree, ?_, hs.live⟩
  intro i p d hp hd
  rcases Table.of_update_some hd with ⟨-, hd⟩ | ⟨-, hd⟩
  · cases hd
    rfl
  · exact hs.first i p d hp hd

theorem Sane.closeFd (hs : Sane s log) {fd : Int} {d : Descriptor} (hd : s.fds fd = some d)
    (hsec : d.secondary = false) : Sane (s.closeFd fd) log := by
  refine ⟨hs.table.closed hd hsec, ?_, hs.live⟩
  intro i p e hp he
  rcases Table.of_update_some he with ⟨-, he⟩ | ⟨-, he⟩
  · cases he
  · exact hs.first i p e hp he

/-- A change of an entry that concerns neither its sockets. -/
theorem Sane.setSlot (hs : Sane s log) {i : Fin PKT_MAX} {p q : PktSock} (hp : s.slots i = some p)
    (hfd : q.fd = p.fd) (hfd6 : q.fd6 = p.fd6) : Sane (s.setSlot i (some q)) log := by
  have hholds : s.holds i = q.fd6 := by rw [holds, hp, Option.bind_some, hfd6]
  refine ⟨?_, ?_, ?_⟩
  · rw [holds_setSlot, Option.bind_some, ← hholds, Function.update_eq_self]
    exact hs.table
  · intro j r d hj hd
    rcases setSlot_slots hj with ⟨-, hr⟩ | ⟨-, hr⟩
    · cases hr
      exact hs.first i p d hp (hfd ▸ hd)
    · exact hs.first j r d hr hd
  · have hent := entries_setSlot s i (some q)
    rw [hp] at hent
    have hlive := hs.live
    simp only [Option.isSome_some, if_true] at hent
    show s.live = _
    omega

theorem findLocked_some {fd : Int} {i : Fin PKT_MAX} {p : PktSock}
    (h : s.findLocked fd = some (i, p)) : s.slots i = some p ∧ p.fd = fd := by
  rw [findLocked] at h
  obtain ⟨j, -, hj⟩ := List.exists_of_findSome?_eq_some h
  obtain ⟨q, hq, hif⟩ := Option.bind_eq_some_iff.mp hj
  by_cases hfd : q.fd = fd
  · rw [if_pos hfd] at hif
    cases hif
    exact ⟨hq, hfd⟩
  · rw [if_neg hfd] at hif
    cases hif

theorem packetSocket_eq {fd handle : Int} {r : State × List Obs}
    (hr : (s.openFd fd handle false).reapLocked = r) :
    (s.packetSocket fd handle).1 =
      match (List.finRange PKT_MAX).find? fun i => (r.1.slots i).isNone with
      | none => (r.1.closeFd fd, r.2)
      | some i =>
          ({ r.1.setSlot i (some ⟨fd, handle, none, 0, false⟩) with live := r.1.live + 1 },
            .taken i :: r.2) := by
  rw [State.packetSocket, hr]
  dsimp only
  cases (List.finRange PKT_MAX).find? fun i => (r.1.slots i).isNone <;> rfl

/-- An entry is made for a descriptor that is no second socket. -/
theorem Inv.taken (h : Inv s log) {i : Fin PKT_MAX} (hi : s.slots i = none) {fd handle : Int}
    {d : Descriptor} (hd : s.fds fd = some d) (hsec : d.secondary = false) :
    Inv { s.setSlot i (some ⟨fd, handle, none, 0, false⟩) with live := s.live + 1 } (.taken i :: log) := by
  have hholds : s.holds i = none := by rw [holds, hi, Option.bind_none]
  have htable : Table s.fds s.openings (s.setSlot i (some ⟨fd, handle, none, 0, false⟩)).holds log := by
    rw [holds_setSlot, Option.bind_some, ← hholds, Function.update_eq_self]
    exact h.sane.table
  refine ⟨⟨htable.logged_more nofun nofun, ?_, ?_⟩, ?_, fun c hc => ?_, fun c hc => ?_, h.turns⟩
  · intro j p e hj he
    rcases setSlot_slots hj with ⟨-, hp⟩ | ⟨-, hp⟩
    · cases hp
      have he : s.fds fd = some e := he
      rw [hd] at he
      cases he
      exact hsec
    · exact h.sane.first j p e hp he
  · have hent := entries_setSlot s i (some ⟨fd, handle, none, 0, false⟩)
    rw [hi] at hent
    have hlive := h.sane.live
    simp only [Option.isSome_some, Option.isSome_none, if_true, Bool.false_eq_true, if_false] at hent
    show s.live + 1 = (s.setSlot i (some ⟨fd, handle, none, 0, false⟩)).entries
    omega
  · intro j f p hf hp
    rw [lastFirst] at hf
    by_cases hji : i = j
    · rw [if_pos hji] at hf
      cases hf
    · rw [if_neg hji] at hf
      rcases setSlot_slots hp with ⟨hj, -⟩ | ⟨-, hp⟩
      · exact absurd hj.symm hji
      · exact h.turned j f p hf hp
  · exact h.frames c (by simpa using hc)
  · exact h.retires c (by simpa using hc)

theorem Inv.packetSocket (h : Inv s log) {fd : Int} (handle : Int) (hfree : s.fds fd = none) :
    Inv (s.packetSocket fd handle).1.1 ((s.packetSocket fd handle).1.2 ++ log) := by
  have hopen : Inv (s.openFd fd handle false) log :=
    h.silent (h.sane.openFd handle hfree) fun i p hp => ⟨p, hp, rfl⟩
  obtain ⟨hreaped, -⟩ := reapLocked_reaped hopen.sane
  have hinv := hreaped.inv hopen
  have hd := hreaped.shrinks.fds fd _ (Function.update_self _ _ _) rfl
  rw [packetSocket_eq rfl]
  generalize (s.openFd fd handle false).reapLocked = r at hinv hd
  cases hfind : (List.finRange PKT_MAX).find? fun i => (r.1.slots i).isNone with
  | none =>
    exact hinv.silent (hinv.sane.closeFd hd rfl) fun i p hp => ⟨p, hp, rfl⟩
  | some i =>
    have hi : r.1.slots i = none := by simpa using List.find?_some hfind
    exact hinv.taken hi hd rfl

/-- The second socket is opened and sniffs, or there is none left of the attempt. -/
theorem openSecond_cases (h : Inv s log) (a : Adapter) (hfree : ∀ k ∈ a.number, s.fds k = none) :
    ((s.openSecond a).2 = none ∧ Inv (s.openSecond a).1.1 ((s.openSecond a).1.2 ++ log) ∧
      (s.openSecond a).1.1.slots = s.slots) ∨
    ∃ k handle, a.v6 = some (some (k, handle, true)) ∧ s.fds k = none ∧
      s.openSecond a = ((s.openFd k handle true, [.opened6 s.openings]), some k) := by
  rcases hv6 : a.v6 with _ | _ | ⟨k, handle, sniffs⟩
  · have heq : s.openSecond a = ((s, []), none) := by rw [openSecond, hv6]
    rw [heq]
    exact Or.inl ⟨rfl, h, rfl⟩
  · have heq : s.openSecond a = ((s, []), none) := by rw [openSecond, hv6]
    rw [heq]
    exact Or.inl ⟨rfl, h, rfl⟩
  · have hk : s.fds k = none := hfree k (by simp [Adapter.number, hv6])
    cases sniffs with
    | true => exact Or.inr ⟨k, handle, rfl, hk, by rw [openSecond, hv6]; rfl⟩
    | false =>
      have hd : (s.openFd k handle true).fds k = some ⟨handle, s.openings, true⟩ :=
        Function.update_self _ _ _
      have heq : s.openSecond a =
          (((s.openFd k handle true).closeFd k, [.closed6 s.openings, .opened6 s.openings]), none) := by
        rw [openSecond, hv6]
        simp only [Bool.false_eq_true, if_false, closeSecond_eq hd]
        rfl
      have hfds : ((s.openFd k handle true).closeFd k).fds = s.fds := by
        simp only [State.closeFd, State.openFd, Function.update_idem]
        rw [← hk, Function.update_eq_self]
      have hsane : Sane ((s.openFd k handle true).closeFd k)
          ([.closed6 s.openings, .opened6 s.openings] ++ log) := by
        refine ⟨?_, ?_, h.sane.live⟩
        · rw [hfds]
          exact h.sane.table.tried
        · rw [hfds]
          exact h.sane.first
      have hquiet : Quiet [.closed6 s.openings, .opened6 s.openings] := by
        intro o ho
        rcases List.mem_cons.mp ho with rfl | ho
        · exact Or.inr ⟨_, rfl⟩
        · exact Or.inl ⟨_, List.mem_singleton.mp ho⟩
      rw [heq]
      exact Or.inl ⟨rfl, h.quiet hquiet hsane fun i p hp => ⟨p, hp, rfl⟩, rfl⟩

/-- The second socket goes into an entry that has none. -/
theorem Inv.openedSecond (h : Inv s log)
    (hthere : ∀ i p, s.slots i = some p → s.fdIs p.fd p.handle = true) {i : Fin PKT_MAX}
    {p q : PktSock} (hp : s.slots i = some p) (hnone : p.fd6 = none) {k : Int} (handle : Int)
    (hk : s.fds k = none) (hfd : q.fd = p.fd) (hturn : q.turn = p.turn) (hfd6 : q.fd6 = some k) :
    Inv ((s.openFd k handle true).setSlot i (some q)) (.opened6 s.openings :: log) := by
  have hholds : s.holds i = none := by rw [holds, hp, Option.bind_some, hnone]
  have hquiet : Quiet [.opened6 s.openings] := fun o ho => Or.inl ⟨_, List.mem_singleton.mp ho⟩
  refine h.quiet hquiet ⟨?_, ?_, ?_⟩ ?_
  · rw [holds_setSlot, Option.bind_some, hfd6]
    exact h.sane.table.openedSecond hholds hk
  · intro j r d hj hd
    have hold : ∃ r', s.slots j = some r' ∧ r'.fd = r.fd := by
      rcases setSlot_slots hj with ⟨rfl, hr⟩ | ⟨-, hr⟩
      · cases hr
        exact ⟨p, hp, hfd.symm⟩
      · exact ⟨r, hr, rfl⟩
    obtain ⟨r', hr', hfd'⟩ := hold
    rcases Table.of_update_some hd with ⟨heq, -⟩ | ⟨-, hd⟩
    · -- the descriptor of an entry is open, so the host did not give its number
      obtain ⟨e, he, -⟩ := fdIs_iff.mp (hthere j r' hr')
      rw [hfd', heq, hk] at he
      cases he
    · exact h.sane.first j r' d hr' (hfd' ▸ hd)
  · have hent := entries_setSlot (s.openFd k handle true) i (some q)
    have hslot : (s.openFd k handle true).slots i = some p := hp
    rw [hslot] at hent
    have hlive := h.sane.live
    simp only [Option.isSome_some, if_true] at hent
    have hsame : (s.openFd k handle true).entries = s.entries := rfl
    show s.live = _
    omega
  · intro j r hj
    rcases setSlot_slots hj with ⟨rfl, hr⟩ | ⟨-, hr⟩
    · cases hr
      exact ⟨p, hp, hturn.symm⟩
    · exact ⟨r, hr, rfl⟩

theorem Inv.setSlot (h : Inv s log) {i : Fin PKT_MAX} {p q : PktSock} (hp : s.slots i = some p)
    (hfd : q.fd = p.fd) (hfd6 : q.fd6 = p.fd6) (hturn : q.turn = p.turn) :
    Inv (s.setSlot i (some q)) log := by
  refine h.silent (h.sane.setSlot hp hfd hfd6) fun j r hj => ?_
  rcases setSlot_slots hj with ⟨rfl, hr⟩ | ⟨-, hr⟩
  · cases hr
    exact ⟨p, hp, hturn.symm⟩
  · exact ⟨r, hr, rfl⟩

/-- A bind that finds its entry: what is made of the second socket. -/
theorem packetBind_eq {fd ifindex : Int} (hindex : ¬ ifindex ≤ 0) (a : Adapter) {i : Fin PKT_MAX}
    {p : PktSock} (hfind : s.findLocked fd = some (i, p)) {r : (State × List Obs) × Option Int}
    (hr : (s.setSlot i (some { p with ifindex })).openSecond a = r) :
    (s.packetBind fd (some ifindex) (some a)).1 =
      if a.v4 ≠ some (.ok ()) ∧ r.2 = none then r.1
      else (r.1.1.setSlot i (some { p with ifindex, fd6 := r.2 }), r.1.2) := by
  obtain ⟨⟨s', out⟩, fd6⟩ := r
  unfold State.packetBind
  simp only [if_neg hindex, hfind, hr]
  rcases a.v4 with _ | e | u <;> rcases fd6 with _ | k <;> simp

theorem Inv.packetBind (h : Inv s log)
    (hthere : ∀ i p, s.slots i = some p → s.fdIs p.fd p.handle = true) {fd : Int}
    {addr : Option Int} {adapter : Option Adapter}
    (hfree : ∀ k ∈ adapter.bind Adapter.number, s.fds k = none)
    (hclean : GetsThrough addr adapter → ∀ i p, s.findLocked fd = some (i, p) → p.fd6 = none) :
    Inv (s.packetBind fd addr adapter).1.1 ((s.packetBind fd addr adapter).1.2 ++ log) := by
  rcases addr with _ | ifindex
  · exact h
  by_cases hindex : ifindex ≤ 0
  · unfold State.packetBind
    simp only [if_pos hindex]
    exact h
  rcases adapter with _ | a
  · unfold State.packetBind
    simp only [if_neg hindex]
    exact h
  cases hfind : s.findLocked fd with
  | none =>
    unfold State.packetBind
    simp only [if_neg hindex, hfind]
    exact h
  | some r =>
    obtain ⟨i, p⟩ := r
    obtain ⟨hp, -⟩ := findLocked_some hfind
    have hi : Inv (s.setSlot i (some { p with ifindex })) log := h.setSlot hp rfl rfl rfl
    have hslot : (s.setSlot i (some { p with ifindex })).slots i = some { p with ifindex } :=
      Function.update_self _ _ _
    rw [packetBind_eq hindex a hfind rfl]
    rcases openSecond_cases hi a hfree with ⟨hnone, hinv, hslots⟩ | ⟨k, handle, hv6, hk, heq⟩
    · rw [hnone]
      by_cases hv4 : a.v4 = some (.ok ())
      · have hfd6 : p.fd6 = none :=
          hclean ⟨⟨ifindex, rfl, by omega⟩, a, rfl, Or.inl hv4⟩ i p hfind
        rw [if_neg (by simp [hv4])]
        rw [← hslots] at hslot
        exact hinv.setSlot hslot rfl hfd6.symm rfl
      · rw [if_pos ⟨hv4, rfl⟩]
        exact hinv
    · have hfd6 : p.fd6 = none :=
        hclean ⟨⟨ifindex, rfl, by omega⟩, a, rfl, Or.inr ⟨k, handle, hv6⟩⟩ i p hfind
      have hthere' : ∀ j q, (s.setSlot i (some { p with ifindex })).slots j = some q →
          (s.setSlot i (some { p with ifindex })).fdIs q.fd q.handle = true := by
        intro j q hq
        rcases setSlot_slots hq with ⟨-, hq⟩ | ⟨-, hq⟩
        · cases hq
          exact hthere i p hp
        · exact hthere j q hq
      rw [heq, if_neg (by simp)]
      exact hi.openedSecond hthere' hslot hfd6 handle hk rfl rfl rfl

/-! ## Receiving -/

theorem Sane.queues (hs : Sane s log) (queues : Int → List Given) :
    Sane { s with queues := queues } log := ⟨hs.table, hs.first, hs.live⟩

/-- What a call leaves of the entry: the second socket, unless it is retired. -/
structure Called (s : State) (log : List Obs) (i : Fin PKT_MAX) (p : PktSock) (retire : Bool)
    (r : State × List Obs) : Prop where
  sane : Sane r.1 (r.2 ++ log)
  quiet : Quiet r.2
  entry : r.1.slots i = some (if retire then { p with fd6 := none, turn := false } else p)
  others : ∀ j, j ≠ i → r.1.slots j = s.slots j

theorem dropSecondary_called (hs : Sane s log) {i : Fin PKT_MAX} {p : PktSock} {fd fd6 : Int}
    (hfind : s.findLocked fd = some (i, p)) (hfd6 : p.fd6 = some fd6) :
    Called s log i p true (s.dropSecondary fd) := by
  obtain ⟨hp, -⟩ := findLocked_some hfind
  obtain ⟨d, hd, -⟩ := hs.table.second i fd6 (by rw [holds, hp, Option.bind_some, hfd6])
  have heq : s.dropSecondary fd =
      ((s.closeFd fd6).setSlot i (some { p with fd6 := none, turn := false }), [.closed6 d.opening]) := by
    simp only [dropSecondary, hfind, hfd6, closeSecond_eq hd]
  rw [heq]
  refine ⟨hs.dropped hp hfd6 hd rfl rfl, fun o ho => Or.inr ⟨_, List.mem_singleton.mp ho⟩, ?_, ?_⟩
  · exact Function.update_self _ _ _
  · exact fun j hj => Function.update_of_ne hj _ _

theorem findLocked_setSlot {fd : Int} {i : Fin PKT_MAX} {p q : PktSock}
    (hfind : s.findLocked fd = some (i, p)) (hq : q.fd = p.fd) :
    (s.setSlot i (some q)).findLocked fd = some (i, q) := by
  obtain ⟨hp, hfd⟩ := findLocked_some hfind
  rw [findLocked] at hfind ⊢
  have hsame : ∀ is : List (Fin PKT_MAX),
      is.findSome? (fun j => (s.slots j).bind fun p => if p.fd = fd then some (j, p) else none) = some (i, p) →
      is.findSome? (fun j => ((s.setSlot i (some q)).slots j).bind fun p =>
        if p.fd = fd then some (j, p) else none) = some (i, q) := by
    intro is
    induction is with
    | nil => nofun
    | cons j is ih =>
      intro hf
      rw [List.findSome?_cons] at hf ⊢
      by_cases hj : j = i
      · subst hj
        have hnew : (s.setSlot j (some q)).slots j = some q := Function.update_self _ _ _
        rw [hnew, Option.bind_some, if_pos (hq.trans hfd)]
      · have hold : (s.setSlot i (some q)).slots j = s.slots j := Function.update_of_ne hj _ _
        rw [hold]
        rcases hm : (s.slots j).bind fun p => if p.fd = fd then some (j, p) else none with _ | x
        · rw [hm] at hf
          exact ih hf
        · rw [hm] at hf
          cases hf
          obtain ⟨y, -, hy⟩ := Option.bind_eq_some_iff.mp hm
          split at hy
          · cases hy
            exact absurd rfl hj
          · cases hy
  exact hsame _ hfind

/-- The call that `__ape_shim_packet_recv` makes of an entry. -/
def callOf (n : Nat) (alen : Option Nat) (i : Fin PKT_MAX) (p : PktSock) (queues : Int → List Given)
    (kept : Bool) : Call :=
  let r := serve n (fun which => if which then p.fd6 else some p.fd) p.turn queues
  ⟨i, p.turn, p.fd6.isSome, r.1.from4, r.1.from6, answerOf p.ifindex alen r.1 r.2, kept⟩

/-- Nothing comes from a second socket that is not there. -/
theorem serve_none (n : Nat) (fd : Int) (first : Bool) (queues : Int → List Given) :
    let r := serve n (fun which => if which then none else some fd) first queues
    r.1.from6 = [] ∧ r.1.bad6 = false := by
  intro r
  have hr : r = serve n (fun which => if which then none else some fd) first queues := rfl
  rw [serve_eq] at hr
  rw [hr]
  cases first <;> split <;> simp [attempt, recvFramed]

/-- An entry that has been served, before anything is retired. -/
def served (s : State) (i : Fin PKT_MAX) (p : PktSock) (queues : Int → List Given) : State :=
  { s.setSlot i (some { p with turn := p.fd6.isSome && !p.turn }) with queues := queues }

instance (r : Progress × Res) : Decidable (Retires r) := inferInstanceAs (Decidable (_ ∧ _))

theorem packetRecv_eq {fd : Int} {i : Fin PKT_MAX} {p : PktSock}
    (hfind : s.findLocked fd = some (i, p)) (n : Nat) (alen : Option Nat) {g : Progress × Res}
    (hg : serve n (fun which => if which then p.fd6 else some p.fd) p.turn s.queues = g) :
    s.packetRecv fd n alen =
      let s' := served s i p g.1.queues
      let r := if Retires g then s'.dropSecondary fd else (s', [])
      (r.1, .call (callOf n alen i p s.queues ((r.1.slots i).bind PktSock.fd6).isSome) :: r.2) := by
  simp only [State.packetRecv, hfind, callOf]
  subst hg
  rfl

/-- A call on an entry, and whether it retires the second socket. -/
theorem packetRecv_spec (hs : Sane s log) {fd : Int} {i : Fin PKT_MAX} {p : PktSock}
    (hfind : s.findLocked fd = some (i, p)) (n : Nat) (alen : Option Nat) :
    ∃ (retire : Bool) (r : State × List Obs),
      (retire = true ↔
        Retires (serve n (fun which => if which then p.fd6 else some p.fd) p.turn s.queues)) ∧
      Called s log i { p with turn := p.fd6.isSome && !p.turn } retire r ∧
      s.packetRecv fd n alen =
        (r.1, .call (callOf n alen i p s.queues (p.fd6.isSome && !retire)) :: r.2) := by
  obtain ⟨hp, -⟩ := findLocked_some hfind
  obtain ⟨g, hg⟩ :
      ∃ g, serve n (fun which => if which then p.fd6 else some p.fd) p.turn s.queues = g := ⟨_, rfl⟩
  have hsane : Sane (served s i p g.1.queues) log :=
    (hs.setSlot hp (q := { p with turn := p.fd6.isSome && !p.turn }) rfl rfl).queues g.1.queues
  have hslot : (served s i p g.1.queues).slots i =
      some { p with turn := p.fd6.isSome && !p.turn } := Function.update_self _ _ _
  have hothers : ∀ j, j ≠ i → (served s i p g.1.queues).slots j = s.slots j :=
    fun j hj => Function.update_of_ne hj _ _
  have hfind' : (served s i p g.1.queues).findLocked fd =
      some (i, { p with turn := p.fd6.isSome && !p.turn }) := findLocked_setSlot hfind rfl
  rw [packetRecv_eq hfind n alen hg, hg]
  by_cases hretire : Retires g
  · cases hfd6 : p.fd6 with
    | none =>
      have hnone := serve_none n p.fd p.turn s.queues
      rw [hfd6] at hg
      rw [hg] at hnone
      have hbad := hretire.2
      rw [hnone.2] at hbad
      cases hbad
    | some fd6 =>
      have hcalled := dropSecondary_called hsane hfind' hfd6
      refine ⟨true, _, iff_of_true rfl hretire, ⟨hcalled.sane, hcalled.quiet, ?_, ?_⟩, ?_⟩
      · rw [← hfd6]
        exact hcalled.entry
      · exact fun j hj => (hcalled.others j hj).trans (hothers j hj)
      · simp only [if_pos hretire, hcalled.entry]
        rfl
  · refine ⟨false, (served s i p g.1.queues, []), iff_of_false nofun hretire,
      ⟨hsane, Quiet.nil, hslot, hothers⟩, ?_⟩
    simp only [if_neg hretire, hslot]
    simp

theorem answerOf_frame {ifindex : Int} {alen : Option Nat} {g : Progress} {r : Res} {b sll : Bytes}
    (h : answerOf ifindex alen g r = .frame b sll) : ∃ et d, r = .frame et d ∧ b = frameOf et d := by
  rcases r with ⟨et, d⟩ | e
  · rw [answerOf] at h
    cases h
    exact ⟨et, d, rfl, rfl⟩
  · cases e <;> simp only [answerOf] at h <;> (try split at h) <;> cases h

/-- Every frame a call answers with is that of a datagram it took. -/
theorem callOf_frame {n : Nat} {alen : Option Nat} {i : Fin PKT_MAX} {p : PktSock}
    {queues : Int → List Given} {kept : Bool} {b sll : Bytes}
    (h : (callOf n alen i p queues kept).answer = .frame b sll) :
    ∃ d ∈ (callOf n alen i p queues kept).from4 ++ (callOf n alen i p queues kept).from6,
      IsFrame b d := by
  obtain ⟨et, d, hres, rfl⟩ := answerOf_frame h
  obtain ⟨hmem, het⟩ := serve_frame hres
  exact ⟨d, hmem, isFrame_of_etherType het⟩

theorem serve_short {n : Nat} (hn : n ≤ ETH_HLEN) (fds : Bool → Option Int) (first : Bool)
    (queues : Int → List Given) : (serve n fds first queues).1.from6 = [] := by
  have htaken : ∀ fd queues, (recvFramed n fd queues).taken = [] := by
    intro fd queues
    cases fd with
    | none => rfl
    | some fd => rw [recvFramed, if_pos hn]
  rw [serve_eq]
  cases first <;> split <;> simp [attempt, htaken]

/-- Junk from the second socket retires it, where what is queued is clear. -/
theorem Sane.retires (hs : Sane s log) {i : Fin PKT_MAX} {p : PktSock} {fd6 : Int}
    (hp : s.slots i = some p) (hfd6 : p.fd6 = some fd6) (n : Nat) (queues : Int → List Given)
    (hclear : ETH_HLEN < n → Clear (n - ETH_HLEN) p.turn (queues p.fd) (queues fd6))
    (hjunk : ∃ d ∈ (serve n (fun which => if which then p.fd6 else some p.fd) p.turn queues).1.from6,
      Junk d) :
    Retires (serve n (fun which => if which then p.fd6 else some p.fd) p.turn queues) := by
  by_cases hn : ETH_HLEN < n
  · obtain ⟨d, hd, hsec⟩ := hs.table.second i fd6 (by rw [holds, hp, Option.bind_some, hfd6])
    have hne : fd6 ≠ p.fd := by
      rintro rfl
      rw [hs.first i p d hp hd] at hsec
      cases hsec
    rw [hfd6] at hjunk ⊢
    exact (serve_retires_iff hn hne p.turn queues).mpr (hclear hn) hjunk
  · obtain ⟨d, hd, -⟩ := hjunk
    rw [serve_short (by omega)] at hd
    cases hd

theorem Inv.packetRecv (h : Inv s log) (fd : Int) (n : Nat) (alen : Option Nat)
    (hclean : ∀ i p fd6, s.findLocked fd = some (i, p) → p.fd6 = some fd6 → ETH_HLEN < n →
      Clear (n - ETH_HLEN) p.turn (s.queues p.fd) (s.queues fd6)) :
    Inv (s.packetRecv fd n alen).1 ((s.packetRecv fd n alen).2 ++ log) := by
  cases hfind : s.findLocked fd with
  | none =>
    have heq : s.packetRecv fd n alen = (s, []) := by simp only [State.packetRecv, hfind]
    rw [heq]
    exact h
  | some r =>
    obtain ⟨i, p⟩ := r
    obtain ⟨hp, -⟩ := findLocked_some hfind
    obtain ⟨retire, ⟨s', out⟩, hretire, hcalled, heq⟩ := packetRecv_spec h.sane hfind n alen
    obtain ⟨hfirst, halt, hcall⟩ := hcalled.quiet.keeps log
    rw [heq]
    refine ⟨⟨hcalled.sane.table.logged_more nofun nofun, hcalled.sane.first, hcalled.sane.live⟩,
      ?_, ?_, ?_, ?_, halt.mpr h.turns⟩
    · intro j f q hf hq
      rw [List.cons_append] at hf
      by_cases hj : i = j
      · subst hj
        have hf := (lastFirst_call_self (callOf n alen i p s.queues (p.fd6.isSome && !retire)) _).symm.trans hf
        simp only [callOf] at hf
        rw [hcalled.entry] at hq
        -- the first choice is kept only of a call that retires nothing
        cases retire with
        | true => simp at hf
        | false =>
          cases hsix : p.fd6.isSome with
          | false => simp [hsix] at hf
          | true =>
            simp only [hsix, Bool.not_false, Bool.and_true, if_true, Option.some.injEq] at hf
            simp only [Bool.false_eq_true, if_false, hsix, Bool.true_and, Option.some.injEq] at hq
            rw [← hq, ← hf]
      · rw [lastFirst_call_ne (by exact hj), hfirst] at hf
        rw [hcalled.others j (Ne.symm hj)] at hq
        exact h.turned j f q hf hq
    · intro c hc b sll hb
      rw [List.cons_append, List.mem_cons, hcall] at hc
      rcases hc with hc | hc
      · cases hc
        exact callOf_frame hb
      · exact h.frames c hc b sll hb
    · intro c hc hjunk
      rw [List.cons_append, List.mem_cons, hcall] at hc
      rcases hc with hc | hc
      · cases hc
        cases hfd6 : p.fd6 with
        | none => simp [callOf]
        | some fd6 =>
          have hr : retire = true := hretire.mpr (h.sane.retires hp hfd6 n s.queues
            (hclean i p fd6 hfind hfd6) hjunk)
          simp [callOf, hr]
      · exact h.retires c hc hjunk
    · -- the entry's turn is not its last first choice
      intro _ hlast
      have hlast : lastFirst i (out ++ log) = some p.turn := hlast
      rw [hfirst] at hlast
      have := h.turned i p.turn p hlast hp
      cases hturn : p.turn <;> rw [hturn] at this <;> cases this

/-! ## Runs -/

theorem Inv.init : Inv State.init [] where
  sane := ⟨Table.start, nofun, by simp [entries, State.init]⟩
  turned := nofun
  frames _ hc := by simp at hc
  retires _ hc := by simp at hc
  turns := trivial

/-- **Step lemma.** Every operation that meets the condition keeps the invariant. -/
theorem Inv.step (h : Inv s log) {a : Label} (hclean : Clean s a) {s' : State} {out : List Obs}
    (hstep : s.step a = some (s', out)) : Inv s' (out ++ log) := by
  obtain ⟨hreaped, hthere⟩ := packetIs_reaped h.sane
  have his := hreaped.inv h
  cases a with
  | socket fd handle =>
    rw [State.step] at hstep
    split at hstep
    · rename_i hfree
      have hinv := h.packetSocket handle hfree
      rw [Option.some.inj hstep] at hinv
      exact hinv
    · cases hstep
  | bind fd addr adapter =>
    simp only [State.step] at hstep
    split at hstep
    · rename_i hfree
      cases hstep
      rw [List.append_assoc]
      exact his.packetBind hthere hfree hclean
    · cases hstep
  | recv fd n alen =>
    simp only [State.step] at hstep
    cases hstep
    rw [List.append_assoc]
    exact his.packetRecv fd n alen hclean
  | close fd =>
    rw [State.step] at hstep
    split at hstep
    · cases hstep
    · rename_i d hd
      split at hstep
      · cases hstep
      · rename_i hsec
        cases hstep
        exact h.silent (h.sane.closeFd hd (by simpa using hsec))
          fun i p hp => ⟨p, hp, rfl⟩
  | reap =>
    simp only [State.step, Option.some.injEq] at hstep
    rw [hstep] at his
    exact his
  | opened fd handle =>
    rw [State.step] at hstep
    split at hstep
    · rename_i hfree
      cases hstep
      exact h.silent (h.sane.openFd handle hfree) fun i p hp => ⟨p, hp, rfl⟩
    · cases hstep
  | arrive fd g =>
    rw [State.step] at hstep
    cases hstep
    exact h.silent (h.sane.queues _) fun i p hp => ⟨p, hp, rfl⟩

/-- A second socket that is in use is some entry's. -/
theorem Sane.holds_iff_open (hs : Sane s log) {k : Nat} (hk : .opened6 k ∈ log) :
    s.Holds k ↔ Open s.fds k := by
  constructor
  · rintro ⟨i, fd, d, -, hd, hdk⟩
    exact ⟨fd, d, hd, hdk⟩
  · rintro ⟨fd, d, hd, rfl⟩
    obtain ⟨i, hi⟩ := hs.table.owned fd d hd ((hs.table.tagged fd d hd).mp hk)
    exact ⟨i, fd, d, hi, hd, rfl⟩

theorem Inv.sound (h : Inv s log) : Sound s log where
  frames := h.frames
  retires := h.retires
  once k hk := by
    rw [h.sane.holds_iff_open hk]
    exact h.sane.table.balance k hk
  reaps _ _ hp hfd := reapLocked_gone h.sane hp hfd
  live := h.sane.live
  turns := h.turns

/-- **Packet sockets.** In every run whose steps meet the condition, what should hold of the
table, the calls and the second sockets holds in every state. -/
theorem packet_run_sound {s : State} {log : List Obs} (h : packetMachine.Run Clean s log) :
    Sound s log := by
  refine Inv.sound ?_
  refine h.invariant (P := Inv) Inv.init ?_
  intro s log a s' out hinv hclean hstep
  exact hinv.step hclean hstep

/-- An interface with both addresses, where the host's second socket is `fd6`. -/
def bothWork (fd6 handle : Int) : Adapter := ⟨some (.ok ()), some (some (fd6, handle, true))⟩

instance (room : Nat) (first : Bool) (q4 q6 : List Given) : Decidable (Clear room first q4 q6) :=
  inferInstanceAs (Decidable (_ → _ → _ ∧ _ ∧ _ ∧ _))

/-- A check that a step is clean, on the entry that it finds. -/
def cleanly (s : State) (a : Label) : Bool :=
  let entry (fd : Int) : Option PktSock := (s.packetIs.1.findLocked fd).map Prod.snd
  match a with
  | .bind fd _ _ => (entry fd).all fun p => p.fd6.isNone
  | .recv fd n _ => (entry fd).all fun p => p.fd6.all fun fd6 =>
      decide (Clear (n - ETH_HLEN) p.turn (s.packetIs.1.queues p.fd) (s.packetIs.1.queues fd6))
  | _ => true

theorem clean_of_cleanly (s : State) (a : Label) (h : cleanly s a = true) : Clean s a := by
  cases a with
  | bind fd addr adapter =>
    intro _ i p hfind
    simpa [cleanly, hfind] using h
  | recv fd n alen =>
    intro i p fd6 hfind hfd6 _
    simpa [cleanly, hfind, hfd6] using h
  | _ => trivial

/-- A bind, and a call that finds nothing but junk on the second socket. -/
def junkOnSecond : List Label :=
  [.socket 3 100, .bind 3 (some 7) (some (bothWork 4 104)), .arrive 4 (.datagram [0]), .recv 3 1514 none]

theorem packet_run_sound_junk : ∃ s log, packetMachine.Run Clean s log ∧
    Sound s log ∧ decide (.closed6 1 ∈ log) = true := by
  have hstart : packetMachine.Run Clean State.init [] := .start
  obtain ⟨s, log, hrun, hlog⟩ := hstart.extend cleanly clean_of_cleanly junkOnSecond
    (fun _ log => decide (.closed6 1 ∈ log)) (by decide +kernel)
  exact ⟨s, log, hrun, packet_run_sound hrun, hlog⟩

/-- A socket is bound twice, closed and reaped. -/
def boundTwice : List Label :=
  [.socket 3 100, .bind 3 (some 7) (some (bothWork 4 104)), .bind 3 (some 7) (some (bothWork 5 105)),
    .close 3, .reap]

/-- Both sockets have junk when the call comes. -/
def junkOnBoth : List Label :=
  [.socket 3 100, .bind 3 (some 7) (some (bothWork 4 104)), .arrive 3 (.datagram [0]),
    .arrive 4 (.datagram [0]), .recv 3 1514 none]

/-- The second socket of a first bind is never closed; and one whose junk comes after junk
from the first socket is kept. -/
theorem second_socket_lost :
    (∃ s log, packetMachine.Run anyStep s log ∧
      (decide (.opened6 1 ∈ log) && decide (log.count (.closed6 1) = 0) &&
        decide (∀ i, s.holds i = none)) = true) ∧
    ∃ s log, packetMachine.Run anyStep s log ∧
      (log.any fun o => match o with
        | .call c => c.kept && c.from6.any fun d => decide (Junk d)
        | _ => false) = true := by
  have hstart : packetMachine.Run anyStep State.init [] := .start
  constructor
  · exact hstart.extend (fun _ _ => true) (fun _ _ _ => trivial) boundTwice _ (by decide +kernel)
  · exact hstart.extend (fun _ _ => true) (fun _ _ _ => trivial) junkOnBoth
      (fun _ log => log.any fun o => match o with
        | .call c => c.kept && c.from6.any fun d => decide (Junk d)
        | _ => false) (by decide +kernel)

end ApeShim.Packet
