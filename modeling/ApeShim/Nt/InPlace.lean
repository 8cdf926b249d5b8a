import ApeShim.Lib.Memory
import ApeShim.Nt.Shares

/-!
`__normuncrest` of `shim/mkntpath.c` as it works: the components it keeps are moved to the
front of the buffer they are read from.
-/

namespace ApeShim.Nt.InPlace
open Memory

/-! ## The loop -/

/-- `while (i < n && f(p[i])) i++`, with `n - i` cells left. -/
def skip (f : UInt16 → Bool) (p : Nat → UInt16) (i : Nat) : Nat → Nat
  | 0 => i
  | r + 1 => if f (p i) then skip f p (i + 1) r else i

/-- `while (j && p[j - 1] != '\\') j--` -/
def back (p : Nat → UInt16) : Nat → Nat
  | 0 => 0
  | j + 1 => if p j = bslash then j + 1 else back p j

structure Cursor where
  p : Nat → UInt16
  i : Nat
  j : Nat
  climbed : Bool

/-- One turn of the outer loop. -/
def turn (n : Nat) (s : Cursor) : Cursor :=
  let i := skip isSlash s.p s.i (n - s.i)
  let k := skip (fun c => !isSlash c) s.p i (n - i)
  let len := k - i
  if len = 1 ∧ s.p i = dot then { s with i := k }
  else if len = 2 ∧ s.p i = dot ∧ s.p (i + 1) = dot then
    if s.j ≠ 0 then { s with i := k, j := back s.p s.j - 1 } else { s with i := k, climbed := true }
  else if len ≠ 0 then
    let p := Function.update s.p s.j bslash
    let j := s.j + 1
    { s with p := if j ≠ i then blit p j (view p i len) else p, i := k, j := j + len }
  else { s with i := k }

def loop (n : Nat) : Nat → Cursor → Cursor
  | 0, s => s
  | fuel + 1, s => if s.i < n then loop n fuel (turn n s) else s

/-- `__normuncrest`: the buffer, the length of what is left, and whether it climbed. -/
def normuncrest (p : Nat → UInt16) (n : Nat) : (Nat → UInt16) × Nat × Bool :=
  let trailing := n ≠ 0 && isSlash (p (n - 1))
  let s := loop n n ⟨p, 0, 0, false⟩
  let (p, j) := if trailing && s.j ≠ 0 then (Function.update s.p s.j bslash, s.j + 1) else (s.p, s.j)
  (Function.update p j 0, j, s.climbed)

/-! ## What the inner loops find -/

section Scan

variable {f : UInt16 → Bool} {p : Nat → UInt16} {i j r : Nat} {a c u : Str}

theorem view_cons : view p i (r + 1) = p i :: view p (i + 1) r := by
  rw [Nat.add_comm r 1, view_add, view_succ, view_zero]
  rfl

theorem skip_eq : skip f p i r = i + ((view p i r).takeWhile f).length := by
  induction r generalizing i with
  | zero => rfl
  | succ r ih =>
    rw [skip, view_cons]
    by_cases h : f (p i) = true
    · rw [if_pos h, ih, List.takeWhile_cons_of_pos h, List.length_cons]
      omega
    · rw [if_neg h, List.takeWhile_cons_of_neg h]
      rfl

theorem back_eq (h : view p 0 j = a ++ bslash :: c) (hc : bslash ∉ c) : back p j = a.length + 1 := by
  induction c using List.reverseRecOn generalizing j with
  | nil =>
    have hj := congrArg List.length h
    rw [view_length, List.length_append, List.length_singleton] at hj
    subst hj
    rw [view_succ] at h
    have hlast := (List.cons.inj (List.append_inj_right' h rfl)).1
    rw [Nat.zero_add] at hlast
    rw [back, if_pos hlast]
  | append_singleton c x ih =>
    have happ : a ++ bslash :: (c ++ [x]) = (a ++ bslash :: c) ++ [x] := by simp
    rw [happ] at h
    have hj := congrArg List.length h
    rw [view_length, List.length_append, List.length_singleton] at hj
    subst hj
    rw [view_succ] at h
    have hlast := (List.cons.inj (List.append_inj_right' h rfl)).1
    rw [Nat.zero_add] at hlast
    have hx : x ≠ bslash := by
      rintro rfl
      exact hc (by simp)
    rw [back, if_neg (by rw [hlast]; exact hx)]
    exact ih (List.append_inj_left' h rfl) fun hm => hc (by simp [hm])

theorem view_drop {n : Nat} (h : i ≤ n) : (view p 0 n).drop i = view p i (n - i) := by
  obtain ⟨k, rfl⟩ := Nat.exists_eq_add_of_le h
  have hlen : (view p 0 i).length = i := view_length
  rw [view_add, Nat.zero_add, Nat.add_sub_cancel_left]
  conv_lhs => rw [← hlen]
  rw [hlen, List.drop_left' hlen]

/-- A stretch of cells that is taken apart. -/
theorem view_split (h : view p i r = a ++ u) :
    view p i a.length = a ∧ view p (i + a.length) (r - a.length) = u := by
  have hr : r = a.length + (r - a.length) := by
    have := congrArg List.length h
    rw [view_length, List.length_append] at this
    omega
  rw [hr, view_add] at h
  exact List.append_inj h (by rw [view_length])

theorem view_eq_dot (h : view p i r = u) : (r = 1 ∧ p i = dot) ↔ u = [dot] := by
  subst h
  constructor
  · rintro ⟨rfl, hd⟩
    rw [view_cons, view_zero, hd]
  · intro h
    obtain rfl : r = 1 := by simpa using congrArg List.length h
    rw [view_cons] at h
    exact ⟨rfl, (List.cons.inj h).1⟩

theorem view_eq_dotdot (h : view p i r = u) :
    (r = 2 ∧ p i = dot ∧ p (i + 1) = dot) ↔ u = dotdot := by
  subst h
  constructor
  · rintro ⟨rfl, hd, hd'⟩
    rw [view_cons, view_cons, view_zero, hd, hd']
    rfl
  · intro h
    obtain rfl : r = 2 := by simpa [dotdot] using congrArg List.length h
    rw [view_cons, view_cons] at h
    exact ⟨rfl, (List.cons.inj h).1, (List.cons.inj (List.cons.inj h).2).1⟩

end Scan

/-! ## The components -/

section Components

variable {sl u v rem : Str} {st : List Str} {b : Bool}

theorem uncLoop_cons (q : Str) (qs : List Str) (st : List Str) (b : Bool) :
    uncLoop (q :: qs) st b = uncLoop qs (uncLoop [q] st b).1 (uncLoop [q] st b).2 := by
  simp only [uncLoop]
  split
  · rfl
  · split
    · cases st <;> rfl
    · split <;> rfl

theorem uncLoop_slashes (hsl : ∀ x ∈ sl, isSlash x = true) :
    uncLoop (components (sl ++ u)) st b = uncLoop (components u) st b := by
  induction sl with
  | nil => rfl
  | cons x sl ih =>
    rw [List.cons_append, components_sep (hsl x (by simp)), uncLoop_cons]
    exact ih fun y hy => hsl y (by simp [hy])

theorem uncLoop_component (hu : ∀ x ∈ u, isSlash x = false) (hr : Below rem) :
    uncLoop (components (u ++ rem)) st b =
      uncLoop (components rem) (uncLoop [u] st b).1 (uncLoop [u] st b).2 := by
  cases rem with
  | nil =>
    rw [List.append_nil, components_last hu]
    rfl
  | cons x rem =>
    have hx : isSlash x = true := hr x rfl
    rw [components_cons hu hx, components_sep hx, uncLoop_cons, uncLoop_cons []]
    rfl

end Components

/-! ## What a turn keeps -/

/-- In front of `j` stand the components that are kept, newest first in `st`; from `i` on the
buffer is as it was. -/
structure Inv (p : Nat → UInt16) (n : Nat) (s : Cursor) (st : List Str) : Prop where
  i_le : s.i ≤ n
  j_le : s.j ≤ s.i
  unread : ∀ x, s.i ≤ x → s.p x = p x
  below : Below ((view p 0 n).drop s.i)
  written : view s.p 0 s.j = spell bslash st.reverse
  clean : ∀ c ∈ st, ∀ x ∈ c, isSlash x = false
  ahead : uncLoop (components (view p 0 n)) [] false =
    uncLoop (components ((view p 0 n).drop s.i)) st s.climbed

section Turn

variable {p : Nat → UInt16} {n : Nat} {s : Cursor} {st : List Str}

/-- The separators and the component that the inner loops find. -/
theorem turn_scan (h : Inv p n s st) (hi : s.i < n) :
    ∃ i u rem, skip isSlash s.p s.i (n - s.i) = i ∧
      skip (fun c => !isSlash c) s.p i (n - i) = i + u.length ∧ s.i < i ∧ i + u.length ≤ n ∧
      view s.p i u.length = u ∧ (∀ x ∈ u, isSlash x = false) ∧ Below rem ∧
      (view p 0 n).drop (i + u.length) = rem ∧
      ∀ b, uncLoop (components ((view p 0 n).drop s.i)) st b =
        uncLoop (components rem) (uncLoop [u] st b).1 (uncLoop [u] st b).2 := by
  let w := (view p 0 n).drop s.i
  let sl := w.takeWhile isSlash
  let u := (w.dropWhile isSlash).takeWhile fun c => !isSlash c
  let rem := (w.dropWhile isSlash).dropWhile fun c => !isSlash c
  have hw : w = sl ++ (u ++ rem) := by
    rw [List.takeWhile_append_dropWhile, List.takeWhile_append_dropWhile]
  have hsl : ∀ x ∈ sl, isSlash x = true := fun x hx => List.mem_takeWhile_imp hx
  have hu : ∀ x ∈ u, isSlash x = false := fun x hx => by simpa using List.mem_takeWhile_imp hx
  have hread : view s.p s.i (n - s.i) = w := by
    rw [view_congr fun x hx _ => h.unread x hx]
    exact (view_drop h.i_le).symm
  have hlen : w.length = n - s.i := by rw [← hread, view_length]
  have hpos : 0 < sl.length := by
    rcases hc : w with _ | ⟨c, w'⟩
    · rw [hc] at hlen
      simp only [List.length_nil] at hlen
      omega
    · have hsep : isSlash c = true := h.below c (congrArg List.head? hc)
      rw [show sl = (c :: w').takeWhile isSlash from congrArg _ hc,
        List.takeWhile_cons_of_pos hsep]
      exact Nat.succ_pos _
  obtain ⟨-, hword⟩ := view_split (hread.trans hw)
  have hrest := (view_split hword).1
  have hall : sl.length + (u.length + rem.length) = n - s.i := by
    rw [← hlen, hw, List.length_append, List.length_append]
  have hskip : skip isSlash s.p s.i (n - s.i) = s.i + sl.length := by
    rw [skip_eq, hread]
  have hleft : n - (s.i + sl.length) = n - s.i - sl.length := Nat.sub_add_eq n s.i sl.length
  have hbelow : Below rem := by
    intro c hc
    have := List.head?_dropWhile_not (fun c => !isSlash c) (w.dropWhile isSlash)
    rw [show ((w.dropWhile isSlash).dropWhile fun c => !isSlash c).head? = some c from hc] at this
    simpa using this
  refine ⟨s.i + sl.length, u, rem, hskip, ?_, by omega, by omega, hrest, hu, hbelow, ?_, fun b => ?_⟩
  · rw [skip_eq, hleft, hword, takeWhile_noSlash hu hbelow]
  · rw [Nat.add_assoc, ← List.drop_drop, show (view p 0 n).drop s.i = w from rfl, hw,
      ← List.append_assoc]
    exact List.drop_left' (List.length_append ..)
  · rw [show (view p 0 n).drop s.i = w from rfl, hw, uncLoop_slashes hsl]
    exact uncLoop_component hu hbelow

/-- The buffer behind a name that was moved to the front. -/
theorem view_moved {i j len : Nat} (hj : j < i) (hlen : (view s.p i len).length = len) :
    view (if j + 1 ≠ i then blit (Function.update s.p j bslash) (j + 1)
        (view (Function.update s.p j bslash) i len) else Function.update s.p j bslash)
      0 (j + 1 + len) = view s.p 0 j ++ bslash :: view s.p i len := by
  have hfront : view (Function.update s.p j bslash) 0 (j + 1) = view s.p 0 j ++ [bslash] := by
    rw [view_succ, Nat.zero_add, Function.update_self]
    congr 1
    simpa using view_update_end (m := s.p) (a := 0) (n := j) bslash
  have hname : view (Function.update s.p j bslash) i len = view s.p i len :=
    view_congr fun x hx _ => Function.update_of_ne (by omega) ..
  rw [hname]
  split
  · have := view_blit_append (m := Function.update s.p j bslash) (a := 0) (n := j + 1)
      (view s.p i len)
    rw [hlen, Nat.zero_add] at this
    rw [this, hfront]
    simp
  · rename_i he
    have he : j + 1 = i := by omega
    rw [view_add, hfront, Nat.zero_add, he, hname]
    simp

theorem inv_turn (h : Inv p n s st) (hi : s.i < n) :
    (∃ st', Inv p n (turn n s) st') ∧ s.i < (turn n s).i := by
  obtain ⟨i, u, rem, hskip, hword, hlt, hle, hview, hu, hr, hrem, hloop⟩ := turn_scan h hi
  have hdot := view_eq_dot hview
  have hdotdot := view_eq_dotdot hview
  have hk : i + u.length - i = u.length := Nat.add_sub_cancel_left i _
  have hj := h.j_le
  have hji : s.j ≤ i + u.length := by omega
  have hii : s.i < i + u.length := by omega
  have hunread : ∀ x, i + u.length ≤ x → s.p x = p x := fun x hx => h.unread x (by omega)
  have hbelow : Below ((view p 0 n).drop (i + u.length)) := by
    rw [hrem]
    exact hr
  have hahead : ∀ st' b', uncLoop [u] st s.climbed = (st', b') →
      uncLoop (components (view p 0 n)) [] false =
        uncLoop (components ((view p 0 n).drop (i + u.length))) st' b' := by
    intro st' b' he
    rw [h.ahead, hloop, he, hrem]
  rw [turn]
  simp only [hskip, hword, hk, hdot, hdotdot]
  by_cases hud : u = [dot]
  · rw [if_pos hud]
    exact ⟨⟨st, hle, hji, hunread, hbelow, h.written, h.clean,
      hahead st s.climbed (by rw [hud]; rfl)⟩, hii⟩
  rw [if_neg hud]
  by_cases huu : u = dotdot
  · rw [if_pos huu]
    cases st with
    | nil =>
      have hzero : s.j = 0 := by simpa [spell] using congrArg List.length h.written
      rw [if_neg (not_not_intro hzero)]
      exact ⟨⟨[], hle, hji, hunread, hbelow, h.written, h.clean,
        hahead [] true (by rw [huu]; rfl)⟩, hii⟩
    | cons c st =>
      have hwritten : view s.p 0 s.j = spell bslash st.reverse ++ bslash :: c := by
        rw [h.written, List.reverse_cons, spell_append]
        simp [spell]
      have hback : back s.p s.j = (spell bslash st.reverse).length + 1 :=
        back_eq hwritten fun hm => by
          have := h.clean c (by simp) bslash hm
          exact absurd this (by decide)
      have hlen : s.j = (spell bslash st.reverse).length + (c.length + 1) := by
        simpa using congrArg List.length hwritten
      rw [if_pos (by omega), hback]
      refine ⟨⟨st, hle, ?_, hunread, hbelow, ?_,
        fun d hd => h.clean d (by simp [hd]), hahead st s.climbed (by rw [huu]; rfl)⟩, hii⟩
      · show (spell bslash st.reverse).length + 1 - 1 ≤ i + u.length
        omega
      · rw [hlen, view_add] at hwritten
        exact (List.append_inj hwritten view_length).1
  rw [if_neg huu]
  by_cases hne : u = []
  · rw [if_neg (by simp [hne])]
    exact ⟨⟨st, hle, hji, hunread, hbelow, h.written, h.clean,
      hahead st s.climbed (by rw [hne]; rfl)⟩, hii⟩
  · rw [if_pos (by simpa using hne)]
    refine ⟨⟨u :: st, hle, ?_, ?_, hbelow, ?_, ?_, hahead (u :: st) s.climbed ?_⟩, hii⟩
    · show s.j + 1 + u.length ≤ i + u.length
      omega
    · intro x hx
      have hx : i + u.length ≤ x := hx
      have hupdate : Function.update s.p s.j bslash x = s.p x := Function.update_of_ne (by omega) ..
      rw [← hunread x hx, ← hupdate]
      show (if s.j + 1 ≠ i then _ else _ : Nat → UInt16) x = _
      split
      · exact blit_of_ge (by rw [view_length]; omega)
      · rfl
    · show view _ 0 (s.j + 1 + u.length) = _
      rw [view_moved (by omega) view_length, h.written, hview, List.reverse_cons, spell_append]
      simp [spell]
    · intro d hd
      rcases List.mem_cons.mp hd with rfl | hd
      · exact hu
      · exact h.clean d hd
    · simp [uncLoop, hud, huu, hne]

end Turn

/-! ## The whole run -/

section Run

variable {p : Nat → UInt16} {n : Nat} {s : Cursor} {st : List Str}

theorem inv_start (h : Below (view p 0 n)) : Inv p n ⟨p, 0, 0, false⟩ [] where
  i_le := Nat.zero_le n
  j_le := Nat.le_refl 0
  unread := fun _ _ => rfl
  below := h
  written := rfl
  clean := nofun
  ahead := rfl

theorem inv_loop (fuel : Nat) (h : Inv p n s st) : ∃ st', Inv p n (loop n fuel s) st' := by
  induction fuel generalizing s st with
  | zero => exact ⟨st, h⟩
  | succ fuel ih =>
    rw [loop]
    split
    · rename_i hi
      obtain ⟨⟨st', h'⟩, -⟩ := inv_turn h hi
      exact ih h'
    · exact ⟨st, h⟩

/-- Each turn reads on, so `n` of them read all. -/
theorem loop_ends {fuel : Nat} (h : Inv p n s st) (hfuel : n ≤ s.i + fuel) :
    (loop n fuel s).i = n := by
  induction fuel generalizing s st with
  | zero => exact Nat.le_antisymm h.i_le hfuel
  | succ fuel ih =>
    rw [loop]
    split
    · rename_i hi
      obtain ⟨⟨st', h'⟩, hlt⟩ := inv_turn h hi
      exact ih h' (by omega)
    · exact Nat.le_antisymm h.i_le (by omega)

/-- **What is not read yet is not written**, after any number of turns. -/
theorem loop_unread (fuel : Nat) (h : Below (view p 0 n)) :
    let s := loop n fuel ⟨p, 0, 0, false⟩
    s.j ≤ s.i ∧ ∀ x, s.i ≤ x → s.p x = p x := by
  obtain ⟨st, hinv⟩ := inv_loop fuel (inv_start h)
  exact ⟨hinv.j_le, hinv.unread⟩

theorem last_eq (hn : n ≠ 0) : (view p 0 n).getLast? = some (p (n - 1)) := by
  obtain ⟨k, rfl⟩ := Nat.exists_eq_succ_of_ne_zero hn
  rw [view_succ, List.getLast?_concat, Nat.zero_add, Nat.succ_sub_one]

/-- **In place** `__normuncrest` leaves what it computes. -/
theorem normuncrest_eq (h : Below (view p 0 n)) :
    let r := normuncrest p n
    (view r.1 0 r.2.1, r.2.2) = Nt.normuncrest (view p 0 n) ∧ r.1 r.2.1 = 0 := by
  obtain ⟨st, hinv⟩ := inv_loop n (inv_start h)
  have hread := loop_ends (inv_start h) (Nat.le_add_left n 0)
  have hahead := hinv.ahead
  rw [hread, List.drop_of_length_le (by rw [view_length])] at hahead
  have hdone : uncLoop (components (view p 0 n)) [] false =
      (st, (loop n n ⟨p, 0, 0, false⟩).climbed) := hahead
  have htrailing : (n ≠ 0 && isSlash (p (n - 1))) = (view p 0 n).getLast?.any isSlash := by
    by_cases hn : n = 0
    · subst hn
      rfl
    · rw [last_eq hn]
      simp [hn]
  have hend : ∀ (m : Nat → UInt16) (j : Nat) (c : UInt16),
      view (Function.update m j c) 0 j = view m 0 j := fun m j c => by
    simpa using view_update_end (m := m) (a := 0) (n := j) c
  simp only [normuncrest, Nt.normuncrest, hdone, htrailing]
  have hwritten := hinv.written
  generalize loop n n ⟨p, 0, 0, false⟩ = s at hwritten
  have hbody : (st.reverse.flatMap fun c => bslash :: c) = view s.p 0 s.j := hwritten.symm
  have hempty : (!(view s.p 0 s.j).isEmpty) = decide (s.j ≠ 0) := by
    cases hj : s.j with
    | zero => rfl
    | succ j =>
      rw [view_cons]
      rfl
  rw [hbody, hempty]
  split
  · refine ⟨congrArg₂ _ ?_ rfl, Function.update_self ..⟩
    show view (Function.update (Function.update s.p s.j bslash) (s.j + 1) 0) 0 (s.j + 1) = _
    rw [hend, view_succ, Nat.zero_add, Function.update_self, hend]
  · exact ⟨congrArg₂ _ (hend ..) rfl, Function.update_self ..⟩

end Run

end ApeShim.Nt.InPlace
