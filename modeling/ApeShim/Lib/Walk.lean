import Mathlib.Data.List.Basic
import Mathlib.Data.List.TakeWhile

/-!
Walking a path. A path is read as moves that stay, go up or enter a name; the
names entered so far form a stack, newest first. Taken on its own, a list of moves
comes to some number of ups followed by some names, and every walk of the moves
from a stack can be read off from these two.
-/

namespace Walk

inductive Move (ν : Type*)
  | stay
  | up
  | name (n : ν)

variable {ν : Type*}

/-- A walk that stays at the bottom when it is asked to go up from there. -/
def clamp : List ν → List (Move ν) → List ν
  | st, [] => st
  | st, .stay :: ms => clamp st ms
  | st, .up :: ms => clamp st.tail ms
  | st, .name n :: ms => clamp (n :: st) ms

/-- Some move goes up from the bottom. -/
def climbs : List ν → List (Move ν) → Bool
  | _, [] => false
  | st, .stay :: ms => climbs st ms
  | [], .up :: _ => true
  | _ :: st, .up :: ms => climbs st ms
  | st, .name n :: ms => climbs (n :: st) ms

/-- What further moves make of `k` ups followed by the names `st`. -/
def netFrom : Nat → List ν → List (Move ν) → Nat × List ν
  | k, st, [] => (k, st)
  | k, st, .stay :: ms => netFrom k st ms
  | k, [], .up :: ms => netFrom (k + 1) [] ms
  | k, _ :: st, .up :: ms => netFrom k st ms
  | k, st, .name n :: ms => netFrom k (n :: st) ms

/-- The ups and the names the moves come to. -/
def net (ms : List (Move ν)) : Nat × List ν := netFrom 0 [] ms

theorem clamp_append (st : List ν) (ms ms' : List (Move ν)) :
    clamp st (ms ++ ms') = clamp (clamp st ms) ms' := by
  induction ms generalizing st with
  | nil => rfl
  | cons m ms ih => cases m <;> exact ih _

theorem clamp_names (st ns : List ν) :
    clamp st (ns.map Move.name) = ns.reverse ++ st := by
  induction ns generalizing st with
  | nil => rfl
  | cons n ns ih => simp [clamp, ih]

theorem climbs_names (st ns : List ν) (ms : List (Move ν)) :
    climbs st (ns.map Move.name ++ ms) = climbs (ns.reverse ++ st) ms := by
  induction ns generalizing st with
  | nil => rfl
  | cons n ns ih => simp [climbs, ih]

theorem netFrom_append (k : Nat) (st : List ν) (ms ms' : List (Move ν)) :
    netFrom k st (ms ++ ms') = netFrom (netFrom k st ms).1 (netFrom k st ms).2 ms' := by
  induction ms generalizing k st with
  | nil => rfl
  | cons m ms ih =>
    cases m with
    | stay => exact ih k st
    | name n => exact ih k (n :: st)
    | up =>
      cases st with
      | nil => exact ih (k + 1) []
      | cons n st => exact ih k st

theorem netFrom_add (k j : Nat) (st : List ν) (ms : List (Move ν)) :
    netFrom (k + j) st ms = ((netFrom k st ms).1 + j, (netFrom k st ms).2) := by
  induction ms generalizing k st with
  | nil => rfl
  | cons m ms ih =>
    cases m with
    | stay => exact ih k st
    | name n => exact ih k (n :: st)
    | up =>
      cases st with
      | nil =>
        have := ih (k + 1) []
        rw [Nat.add_right_comm] at this
        exact this
      | cons n st => exact ih k st

theorem le_netFrom (k : Nat) (st : List ν) (ms : List (Move ν)) : k ≤ (netFrom k st ms).1 := by
  have := netFrom_add 0 k st ms
  rw [Nat.zero_add] at this
  rw [this]
  exact Nat.le_add_left k _

theorem clamp_netFrom (base : List ν) (k : Nat) (st : List ν) (ms : List (Move ν)) :
    clamp (st ++ base.drop k) ms = (netFrom k st ms).2 ++ base.drop (netFrom k st ms).1 := by
  induction ms generalizing k st with
  | nil => rfl
  | cons m ms ih =>
    cases m with
    | stay => exact ih k st
    | name n => exact ih k (n :: st)
    | up =>
      cases st with
      | nil =>
        have := ih (k + 1) []
        rw [List.nil_append] at this
        simp only [clamp, netFrom, List.nil_append, List.tail_drop]
        exact this
      | cons n st => exact ih k st

/-- **A clamped walk** drops as many names as the moves go up, and enters theirs. -/
theorem clamp_eq_net (st : List ν) (ms : List (Move ν)) :
    clamp st ms = (net ms).2 ++ st.drop (net ms).1 := by
  simpa [net] using clamp_netFrom st 0 [] ms

/-- A clamped walk ends above the stack it starts from only with the stack's own names on the
way. -/
theorem prefix_clamp_iff (st : List ν) (ms : List (Move ν)) :
    st.reverse <+: (clamp st ms).reverse ↔
      (st.take (net ms).1).reverse <+: (net ms).2.reverse := by
  rw [clamp_eq_net, List.reverse_append]
  have hst : st.reverse = (st.drop (net ms).1).reverse ++ (st.take (net ms).1).reverse := by
    rw [← List.reverse_append, List.take_append_drop]
  rw [hst, List.prefix_append_right_inj]

/-- `k` ups and the names `R`, over a stack of names. -/
def atop (st : List ν) (k : Nat) (R : List ν) : Nat × List ν :=
  if k ≤ st.length then (0, R ++ st.drop k) else (k - st.length, R)

theorem netFrom_atop (st : List ν) (k : Nat) (R : List ν) (ms : List (Move ν)) :
    netFrom (atop st k R).1 (atop st k R).2 ms =
      atop st (netFrom k R ms).1 (netFrom k R ms).2 := by
  induction ms generalizing k R with
  | nil => rfl
  | cons m ms ih =>
    cases m with
    | stay => exact ih k R
    | name n =>
      have : netFrom (atop st k R).1 (atop st k R).2 (.name n :: ms) =
          netFrom (atop st k (n :: R)).1 (atop st k (n :: R)).2 ms := by
        unfold atop
        split <;> rfl
      exact this.trans (ih k (n :: R))
    | up =>
      cases R with
      | cons r R =>
        have : netFrom (atop st k (r :: R)).1 (atop st k (r :: R)).2 (.up :: ms) =
            netFrom (atop st k R).1 (atop st k R).2 ms := by
          unfold atop
          split <;> rfl
        exact this.trans (ih k R)
      | nil =>
        have : netFrom (atop st k []).1 (atop st k []).2 (.up :: ms) =
            netFrom (atop st (k + 1) []).1 (atop st (k + 1) []).2 ms := by
          unfold atop
          rcases Nat.lt_trichotomy k st.length with h | h | h
          · rw [if_pos h.le, if_pos (show k + 1 ≤ st.length from h), List.drop_eq_getElem_cons h]
            rfl
          · have h1 : k + 1 - st.length = 1 := by omega
            rw [if_pos h.le, if_neg (by omega), List.drop_eq_nil_of_le h.ge, h1]
            rfl
          · have h1 : k + 1 - st.length = k - st.length + 1 := by omega
            rw [if_neg (by omega), if_neg (by omega), h1]
            rfl
        exact this.trans (ih (k + 1) [])

theorem netFrom_names (k : Nat) (st ns : List ν) :
    netFrom k st (ns.map Move.name) = (k, ns.reverse ++ st) := by
  induction ns generalizing st with
  | nil => rfl
  | cons n ns ih =>
    rw [List.map_cons, netFrom, ih]
    simp

theorem netFrom_ups (k j : Nat) :
    netFrom k ([] : List ν) (List.replicate j Move.up) = (k + j, []) := by
  induction j generalizing k with
  | zero => rfl
  | succ j ih =>
    rw [List.replicate_succ, netFrom, ih, Nat.add_right_comm]
    rfl

/-- **Moves over a stack**: their ups first take back its names. -/
theorem net_atop (ns : List ν) (ms : List (Move ν)) :
    net (ns.map Move.name ++ ms) = atop ns.reverse (net ms).1 (net ms).2 := by
  have h := netFrom_atop ns.reverse 0 [] ms
  have h0 : atop ns.reverse 0 ([] : List ν) = (0, ns.reverse) := by simp [atop]
  rw [h0] at h
  rw [net, netFrom_append, netFrom_names, List.append_nil]
  exact h

theorem climbs_netFrom (base : List ν) (k : Nat) (hk : k ≤ base.length) (st : List ν)
    (ms : List (Move ν)) :
    climbs (st ++ base.drop k) ms = true ↔ base.length < (netFrom k st ms).1 := by
  induction ms generalizing k st with
  | nil =>
    simp only [climbs, netFrom, Bool.false_eq_true, false_iff]
    omega
  | cons m ms ih =>
    cases m with
    | stay =>
      simp only [climbs, netFrom]
      exact ih k hk st
    | name n =>
      simp only [climbs, netFrom]
      exact ih k hk (n :: st)
    | up =>
      cases st with
      | cons n st => exact ih k hk st
      | nil =>
        rw [List.nil_append]
        by_cases hlt : k < base.length
        · have := ih (k + 1) hlt []
          rw [List.nil_append] at this
          rw [List.drop_eq_getElem_cons hlt]
          exact this
        · rw [List.drop_eq_nil_of_le (by omega)]
          have := le_netFrom (k + 1) ([] : List ν) ms
          simp only [climbs, netFrom, true_iff]
          omega

/-- **A walk climbs** out of a stack exactly when its moves go up further than
the stack is deep. -/
theorem climbs_iff (st : List ν) (ms : List (Move ν)) :
    climbs st ms = true ↔ st.length < (net ms).1 := by
  simpa [net] using climbs_netFrom st 0 (Nat.zero_le _) [] ms

/-- The names the moves enter, in order. -/
def names (ms : List (Move ν)) : List ν :=
  ms.filterMap fun
    | .name n => some n
    | _ => none

/-- What is left of the names keeps their order. -/
theorem netFrom_sublist (k : Nat) (st : List ν) (ms : List (Move ν)) :
    List.Sublist (netFrom k st ms).2.reverse (st.reverse ++ names ms) := by
  induction ms generalizing k st with
  | nil => exact List.sublist_append_left _ _
  | cons m ms ih =>
    cases m with
    | stay => exact ih k st
    | name n =>
      have := ih k (n :: st)
      rw [List.reverse_cons, List.append_assoc] at this
      exact this
    | up =>
      cases st with
      | nil => exact ih (k + 1) []
      | cons n st =>
        rw [List.reverse_cons, List.append_assoc]
        exact (ih k st).trans (List.Sublist.append_left (List.sublist_append_right _ _) _)

theorem net_sublist (ms : List (Move ν)) : List.Sublist (net ms).2.reverse (names ms) := by
  simpa [net] using netFrom_sublist 0 [] ms

/-! ## Pieces -/

/-- A list is one piece without separators, or such a piece, a separator and a rest. -/
theorem pieces_induction {α : Type*} (sep : α → Bool) {P : List α → Prop}
    (last : ∀ w, (∀ x ∈ w, sep x = false) → P w)
    (step : ∀ p s rest, (∀ x ∈ p, sep x = false) → sep s = true → P rest → P (p ++ s :: rest))
    (w : List α) : P w := by
  induction hn : w.length using Nat.strong_induction_on generalizing w with
  | _ n ih =>
    have hsplit := List.takeWhile_append_dropWhile (p := fun x => !sep x) (l := w)
    have hhead : ∀ x ∈ w.takeWhile fun x => !sep x, sep x = false := by
      intro x hx
      simpa using List.mem_takeWhile_imp hx
    cases hd : w.dropWhile fun x => !sep x with
    | nil =>
      rw [hd, List.append_nil] at hsplit
      exact last w (hsplit ▸ hhead)
    | cons s rest =>
      have hs : sep s = true := by
        have := List.head_dropWhile_not (fun x => !sep x) (l := w) (by simp [hd])
        simpa [hd] using this
      rw [hd] at hsplit
      have hlen := congrArg List.length hsplit
      simp only [List.length_append, List.length_cons] at hlen
      rw [← hsplit]
      exact step _ s rest hhead hs (ih rest.length (by omega) rest rfl)

end Walk
