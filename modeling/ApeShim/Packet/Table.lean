import ApeShim.Packet.Frames
import Mathlib.Algebra.BigOperators.Pi
import Mathlib.Algebra.BigOperators.Fin

/-!
The second sockets of the table of packet sockets: which are open, who holds them, and that
each one that was opened is held or has been closed, and closed only once.
-/

namespace ApeShim.Packet
open State

/-! ## Who holds what -/

def State.holds (s : State) (i : Fin PKT_MAX) : Option Int := (s.slots i).bind PktSock.fd6

/-- The number of an opening is in use. -/
def Open (fds : Int → Option Descriptor) (k : Nat) : Prop := ∃ fd d, fds fd = some d ∧ d.opening = k

/-- Descriptors, the holders of second sockets and the log agree. -/
structure Table (fds : Int → Option Descriptor) (openings : Nat)
    (holds : Fin PKT_MAX → Option Int) (log : List Obs) : Prop where
  owned : ∀ fd d, fds fd = some d → d.secondary = true → ∃ i, holds i = some fd
  second : ∀ i k, holds i = some k → ∃ d, fds k = some d ∧ d.secondary = true
  apart : ∀ i j k, holds i = some k → holds j = some k → i = j
  fresh : ∀ fd d, fds fd = some d → d.opening < openings
  inj : ∀ a b d d', fds a = some d → fds b = some d' → d.opening = d'.opening → a = b
  tagged : ∀ fd d, fds fd = some d → (.opened6 d.opening ∈ log ↔ d.secondary = true)
  logged : ∀ k, .opened6 k ∈ log ∨ .closed6 k ∈ log → k < openings
  balance : ∀ k, .opened6 k ∈ log →
    (log.count (.closed6 k) = 1 ∧ ¬ Open fds k) ∨ (log.count (.closed6 k) = 0 ∧ Open fds k)

namespace Table

variable {fds : Int → Option Descriptor} {openings : Nat} {holds : Fin PKT_MAX → Option Int}
  {log : List Obs}

theorem start : Table (fun _ => none) 0 (fun _ => none) [] where
  owned _ _ h := nomatch h
  second _ _ h := nomatch h
  apart _ _ _ h := nomatch h
  fresh _ _ h := nomatch h
  inj _ _ _ _ h := nomatch h
  tagged _ _ h := nomatch h
  logged _ h := by simp at h
  balance _ h := by simp at h

/-- What is logged of entries and calls does not matter here. -/
theorem logged_more (h : Table fds openings holds log) {o : Obs} (hopen : ∀ k, o ≠ .opened6 k)
    (hclose : ∀ k, o ≠ .closed6 k) : Table fds openings holds (o :: log) where
  owned := h.owned
  second := h.second
  apart := h.apart
  fresh := h.fresh
  inj := h.inj
  tagged fd d hd := by
    rw [List.mem_cons, or_iff_right (hopen _).symm]
    exact h.tagged fd d hd
  logged k hk := by
    rw [List.mem_cons, List.mem_cons, or_iff_right (hopen _).symm, or_iff_right (hclose _).symm] at hk
    exact h.logged k hk
  balance k hk := by
    rw [List.mem_cons, or_iff_right (hopen _).symm] at hk
    rw [List.count_cons_of_ne (hclose k)]
    exact h.balance k hk

theorem of_update_some {fd x : Int} {o : Option Descriptor} {d : Descriptor}
    (h : Function.update fds fd o x = some d) : (x = fd ∧ o = some d) ∨ (x ≠ fd ∧ fds x = some d) := by
  by_cases hx : x = fd
  · subst hx
    rw [Function.update_self] at h
    exact Or.inl ⟨rfl, h⟩
  · rw [Function.update_of_ne hx] at h
    exact Or.inr ⟨hx, h⟩

theorem of_update_none {fd x : Int} {d : Descriptor}
    (h : Function.update fds fd none x = some d) : x ≠ fd ∧ fds x = some d := by
  rcases of_update_some h with ⟨-, hd⟩ | h
  · cases hd
  · exact h

theorem open_update {fd : Int} {o : Option Descriptor} {k : Nat} (hfd : ∀ d, fds fd = some d → d.opening ≠ k)
    (ho : ∀ d ∈ o, d.opening ≠ k) : Open (Function.update fds fd o) k ↔ Open fds k := by
  constructor
  · rintro ⟨x, d, hx, hk⟩
    rcases of_update_some hx with ⟨-, hd⟩ | ⟨-, hd⟩
    · exact absurd hk (ho d hd)
    · exact ⟨x, d, hd, hk⟩
  · rintro ⟨x, d, hx, hk⟩
    have hne : x ≠ fd := by
      rintro rfl
      exact hfd d hx hk
    exact ⟨x, d, by rw [Function.update_of_ne hne, hx], hk⟩

section Opened

variable {fd handle x y : Int} {b : Bool} {d d' : Descriptor} (h : Table fds openings holds log)

include h

theorem fresh_opened (hx : Function.update fds fd (some ⟨handle, openings, b⟩) x = some d) :
    d.opening < openings + 1 := by
  rcases of_update_some hx with ⟨-, hd⟩ | ⟨-, hd⟩
  · cases hd
    exact Nat.lt_succ_self _
  · exact Nat.lt_succ_of_lt (h.fresh x d hd)

theorem inj_opened (hx : Function.update fds fd (some ⟨handle, openings, b⟩) x = some d)
    (hy : Function.update fds fd (some ⟨handle, openings, b⟩) y = some d')
    (heq : d.opening = d'.opening) : x = y := by
  rcases of_update_some hx with ⟨rfl, hd⟩ | ⟨-, hd⟩ <;>
    rcases of_update_some hy with ⟨rfl, hd'⟩ | ⟨-, hd'⟩
  · rfl
  · cases hd
    exact absurd heq (h.fresh y d' hd').ne'
  · cases hd'
    exact absurd heq (h.fresh x d hd).ne
  · exact h.inj x y d d' hd hd' heq

end Opened

/-- A descriptor is opened, by anybody. -/
theorem opened (h : Table fds openings holds log) {fd handle : Int} (hfree : fds fd = none) :
    Table (Function.update fds fd (some ⟨handle, openings, false⟩)) (openings + 1) holds log where
  owned x d hx hsec := by
    rcases of_update_some hx with ⟨-, hd⟩ | ⟨-, hd⟩
    · cases hd
      cases hsec
    · exact h.owned x d hd hsec
  second i k hk := by
    obtain ⟨d, hd, hsec⟩ := h.second i k hk
    have hne : k ≠ fd := by
      rintro rfl
      rw [hfree] at hd
      cases hd
    exact ⟨d, by rw [Function.update_of_ne hne, hd], hsec⟩
  apart := h.apart
  fresh _ _ hx := h.fresh_opened hx
  inj _ _ _ _ ha hb heq := h.inj_opened ha hb heq
  tagged x d hx := by
    rcases of_update_some hx with ⟨-, hd⟩ | ⟨-, hd⟩
    · cases hd
      exact iff_of_false (fun hm => (Nat.lt_irrefl _ (h.logged _ (Or.inl hm)))) nofun
    · exact h.tagged x d hd
  logged k hk := Nat.lt_succ_of_lt (h.logged k hk)
  balance k hk := by
    have hlt := h.logged k (Or.inl hk)
    rw [open_update (by simp [hfree]) (by rintro d ⟨⟩; exact hlt.ne')]
    exact h.balance k hk

/-- A descriptor is closed that is no second socket. -/
theorem closed (h : Table fds openings holds log) {fd : Int} {d : Descriptor} (hd : fds fd = some d)
    (hsec : d.secondary = false) : Table (Function.update fds fd none) openings holds log where
  owned x e hx := h.owned x e (of_update_none hx).2
  second i k hk := by
    obtain ⟨e, he, hsec'⟩ := h.second i k hk
    have hne : k ≠ fd := by
      rintro rfl
      rw [hd] at he
      cases he
      rw [hsec] at hsec'
      cases hsec'
    exact ⟨e, by rw [Function.update_of_ne hne, he], hsec'⟩
  apart := h.apart
  fresh x e hx := h.fresh x e (of_update_none hx).2
  inj a b e e' ha hb heq := h.inj a b e e' (of_update_none ha).2 (of_update_none hb).2 heq
  tagged x e hx := h.tagged x e (of_update_none hx).2
  logged := h.logged
  balance k hk := by
    have hne : ∀ e, fds fd = some e → e.opening ≠ k := by
      intro e he hek
      rw [hd] at he
      cases he
      rw [← hek, h.tagged fd d hd, hsec] at hk
      cases hk
    rw [open_update hne (by rintro _ ⟨⟩)]
    exact h.balance k hk

/-- The second socket of an entry is closed and given up. -/
theorem closedSecond (h : Table fds openings holds log) {i : Fin PKT_MAX} {fd : Int} {d : Descriptor}
    (hi : holds i = some fd) (hd : fds fd = some d) :
    Table (Function.update fds fd none) openings (Function.update holds i none)
      (.closed6 d.opening :: log) where
  owned x e hx hsec := by
    obtain ⟨hne, he⟩ := of_update_none hx
    obtain ⟨j, hj⟩ := h.owned x e he hsec
    have hji : j ≠ i := by
      rintro rfl
      rw [hi] at hj
      cases hj
      exact hne rfl
    exact ⟨j, by rw [Function.update_of_ne hji, hj]⟩
  second j k hj := by
    by_cases hji : j = i
    · subst hji
      rw [Function.update_self] at hj
      cases hj
    · rw [Function.update_of_ne hji] at hj
      obtain ⟨e, he, hsec⟩ := h.second j k hj
      have hne : k ≠ fd := by
        rintro rfl
        exact hji (h.apart j i k hj hi)
      exact ⟨e, by rw [Function.update_of_ne hne, he], hsec⟩
  apart a b k ha hb := by
    by_cases hai : a = i
    · subst hai
      rw [Function.update_self] at ha
      cases ha
    · by_cases hbi : b = i
      · subst hbi
        rw [Function.update_self] at hb
        cases hb
      · rw [Function.update_of_ne hai] at ha
        rw [Function.update_of_ne hbi] at hb
        exact h.apart a b k ha hb
  fresh x e hx := h.fresh x e (of_update_none hx).2
  inj a b e e' ha hb heq := h.inj a b e e' (of_update_none ha).2 (of_update_none hb).2 heq
  tagged x e hx := by
    rw [List.mem_cons, or_iff_right (by nofun)]
    exact h.tagged x e (of_update_none hx).2
  logged k hk := by
    rcases hk with hk | hk
    · exact h.logged k (Or.inl (by simpa using hk))
    · rcases List.mem_cons.mp hk with hk | hk
      · cases hk
        exact h.fresh fd d hd
      · exact h.logged k (Or.inr hk)
  balance k hk := by
    have hk : .opened6 k ∈ log := by simpa using hk
    by_cases hdk : d.opening = k
    · subst hdk
      have hcount : log.count (.closed6 d.opening) = 0 := by
        rcases h.balance _ hk with ⟨-, hno⟩ | ⟨hcount, -⟩
        · exact absurd ⟨fd, d, hd, rfl⟩ hno
        · exact hcount
      refine Or.inl ⟨by rw [List.count_cons_self, hcount], ?_⟩
      rintro ⟨x, e, hx, hek⟩
      obtain ⟨hne, he⟩ := of_update_none hx
      exact hne (h.inj x fd e d he hd hek)
    · have hne : ∀ e, fds fd = some e → e.opening ≠ k := by
        intro e he
        rw [hd] at he
        cases he
        exact hdk
      rw [open_update hne (by rintro _ ⟨⟩), List.count_cons_of_ne (by simpa using hdk)]
      exact h.balance k hk

/-- A second socket is opened and put in an entry that has none. -/
theorem openedSecond (h : Table fds openings holds log) {i : Fin PKT_MAX} {fd handle : Int}
    (hi : holds i = none) (hfree : fds fd = none) :
    Table (Function.update fds fd (some ⟨handle, openings, true⟩)) (openings + 1)
      (Function.update holds i (some fd)) (.opened6 openings :: log) where
  owned x d hx hsec := by
    rcases of_update_some hx with ⟨rfl, -⟩ | ⟨-, hd⟩
    · exact ⟨i, Function.update_self _ _ _⟩
    · obtain ⟨j, hj⟩ := h.owned x d hd hsec
      have hji : j ≠ i := by
        rintro rfl
        rw [hi] at hj
        cases hj
      exact ⟨j, by rw [Function.update_of_ne hji, hj]⟩
  second j k hj := by
    by_cases hji : j = i
    · subst hji
      rw [Function.update_self] at hj
      cases hj
      exact ⟨_, Function.update_self _ _ _, rfl⟩
    · rw [Function.update_of_ne hji] at hj
      obtain ⟨d, hd, hsec⟩ := h.second j k hj
      have hne : k ≠ fd := by
        rintro rfl
        rw [hfree] at hd
        cases hd
      exact ⟨d, by rw [Function.update_of_ne hne, hd], hsec⟩
  apart a b k ha hb := by
    have hold : ∀ j, j ≠ i → holds j ≠ some fd := by
      intro j _ hj
      obtain ⟨d, hd, -⟩ := h.second j fd hj
      rw [hfree] at hd
      cases hd
    by_cases hai : a = i <;> by_cases hbi : b = i
    · rw [hai, hbi]
    · subst hai
      rw [Function.update_self] at ha
      cases ha
      rw [Function.update_of_ne hbi] at hb
      exact absurd hb (hold b hbi)
    · subst hbi
      rw [Function.update_self] at hb
      cases hb
      rw [Function.update_of_ne hai] at ha
      exact absurd ha (hold a hai)
    · rw [Function.update_of_ne hai] at ha
      rw [Function.update_of_ne hbi] at hb
      exact h.apart a b k ha hb
  fresh _ _ hx := h.fresh_opened hx
  inj _ _ _ _ ha hb heq := h.inj_opened ha hb heq
  tagged x d hx := by
    rcases of_update_some hx with ⟨-, hd⟩ | ⟨-, hd⟩
    · cases hd
      exact iff_of_true List.mem_cons_self rfl
    · have hne : (.opened6 d.opening : Obs) ≠ .opened6 openings := by
        intro heq
        exact (h.fresh x d hd).ne (Obs.opened6.inj heq)
      rw [List.mem_cons, or_iff_right hne]
      exact h.tagged x d hd
  logged k hk := by
    rcases hk with hk | hk
    · rcases List.mem_cons.mp hk with hk | hk
      · cases hk
        exact Nat.lt_succ_self _
      · exact Nat.lt_succ_of_lt (h.logged k (Or.inl hk))
    · exact Nat.lt_succ_of_lt (h.logged k (Or.inr (by simpa using hk)))
  balance k hk := by
    rw [List.count_cons_of_ne (by nofun)]
    rcases List.mem_cons.mp hk with hk | hk
    · cases hk
      refine Or.inr ⟨List.count_eq_zero.mpr fun hm => ?_, fd, _, Function.update_self _ _ _, rfl⟩
      exact Nat.lt_irrefl _ (h.logged _ (Or.inr hm))
    · have hlt := h.logged k (Or.inl hk)
      rw [open_update (by simp [hfree]) (by rintro d ⟨⟩; exact hlt.ne')]
      exact h.balance k hk

/-- A second socket is opened, does not sniff, and is closed again. -/
theorem tried (h : Table fds openings holds log) :
    Table fds (openings + 1) holds (.closed6 openings :: .opened6 openings :: log) where
  owned := h.owned
  second := h.second
  apart := h.apart
  fresh fd d hd := Nat.lt_succ_of_lt (h.fresh fd d hd)
  inj := h.inj
  tagged fd d hd := by
    have hne : (.opened6 d.opening : Obs) ≠ .opened6 openings := by
      intro heq
      exact (h.fresh fd d hd).ne (Obs.opened6.inj heq)
    rw [List.mem_cons, or_iff_right (by nofun), List.mem_cons, or_iff_right hne]
    exact h.tagged fd d hd
  logged k hk := by
    by_cases hko : k = openings
    · rw [hko]
      exact Nat.lt_succ_self _
    · have hold : .opened6 k ∈ log ∨ .closed6 k ∈ log := by simpa [hko] using hk
      exact Nat.lt_succ_of_lt (h.logged k hold)
  balance k hk := by
    by_cases hko : k = openings
    · subst hko
      refine Or.inl ⟨?_, ?_⟩
      · rw [List.count_cons_self, List.count_cons_of_ne (by nofun), Nat.succ_inj,
          List.count_eq_zero]
        exact fun hm => Nat.lt_irrefl _ (h.logged _ (Or.inr hm))
      · rintro ⟨fd, d, hd, hdk⟩
        exact (h.fresh fd d hd).ne hdk
    · have hk : .opened6 k ∈ log := by simpa [hko] using hk
      rw [List.count_cons_of_ne (by simpa using Ne.symm hko), List.count_cons_of_ne (by nofun)]
      exact h.balance k hk

end Table

end ApeShim.Packet
