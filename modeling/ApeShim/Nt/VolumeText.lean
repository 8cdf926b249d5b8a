import ApeShim.Nt.At

/-!
What the text of a converted path says of its volume: a path on a drive has the drive
as a component, a path on a share has server and share in front, and the downgrade
brings in neither.
-/

namespace ApeShim.Nt
open Walk

/-! ## The volume of a text -/

section Texts

variable {s t a b : Str} {c : UInt16} {ps qs L : List Str}

theorem components_longMark (t : Str) :
    components (longMark ++ t) = [[], [], [quest]] ++ components t := by
  have h : longMark ++ t = bslash :: bslash :: ([quest] ++ bslash :: t) := rfl
  rw [h, components_sep isSlash_bslash, components_sep isSlash_bslash,
    components_cons (by decide) isSlash_bslash]
  rfl

/-- `UNC` -/
def unc : Str := [0x55, 0x4E, 0x43]

theorem components_uncMark (t : Str) :
    components (longMark ++ uncMark ++ t) = [[], [], [quest], unc] ++ components t := by
  have h : uncMark ++ t = unc ++ bslash :: t := rfl
  rw [List.append_assoc, components_longMark, h, components_cons (by decide) isSlash_bslash]
  rfl

theorem components_double (t : Str) : components (bslash :: bslash :: t) = [[], []] ++ components t := by
  rw [components_sep isSlash_bslash, components_sep isSlash_bslash]
  rfl

theorem eq_of_take {m : Str} (h : s.take m.length = m) : s = m ++ s.drop m.length := by
  conv_lhs => rw [← List.take_append_drop m.length s, h]

theorem mem_of_driveMark (h : driveMark s = true) :
    [s.getD 0 0, colon] ∈ (components s).dropLast := by
  simp only [driveMark, Bool.and_eq_true, decide_eq_true_eq, alphaAt, slashAt] at h
  rcases s with _ | ⟨c, _ | ⟨d, _ | ⟨e, s⟩⟩⟩
  · exact absurd h.1.1 (by decide)
  · exact absurd (show (0 : UInt16) = colon from h.1.2) (by decide)
  · exact absurd (show isSlash 0 = true from h.2) (by decide)
  · have hc : isAlpha c.toNat = true := h.1.1
    have hd : d = colon := h.1.2
    have he : isSlash e = true := h.2
    have hno : ∀ x ∈ [c, colon], isSlash x = false := by
      simpa using ⟨Env.isSlash_of_alpha hc, by decide⟩
    have happ : c :: d :: e :: s = [c, colon] ++ e :: s := by simp [hd]
    rw [happ, components_cons hno he, List.dropLast_cons_of_ne_nil (components_ne_nil s)]
    exact List.mem_cons_self

/-- **A path on a drive** has the drive before a separator. -/
theorem mem_of_ntFile_drive (h : ntFile s = some (.drive c, ps)) :
    [c, colon] ∈ (components s).dropLast := by
  unfold ntFile at h
  split at h
  · split at h
    · split at h
      · obtain ⟨qs, -, hq⟩ := Option.map_eq_some_iff.mp h
        cases hq
      · cases h
    · cases h
  · split at h
    · rename_i hlong
      split at h
      · rename_i hmark
        obtain ⟨qs, -, hq⟩ := Option.map_eq_some_iff.mp h
        have hmem := mem_of_driveMark hmark
        have hs : s = longMark ++ s.drop 4 := eq_of_take hlong
        have hget : (s.drop 4).getD 0 0 = c := by
          have : s.getD 4 0 = c := by
            cases hq
            rfl
          rw [← this, hs]
          rfl
        rw [hget] at hmem
        rw [hs, components_longMark, List.dropLast_append_of_ne_nil (components_ne_nil _)]
        exact List.mem_append_right _ hmem
      · cases h
    · split at h
      · split at h
        · split at h
          · cases h
          · cases h
        · cases h
      · split at h
        · rename_i hmark
          have hmem := mem_of_driveMark hmark
          cases h
          exact hmem
        · cases h

/-- What the downgrade can do. -/
theorem downgrade_cases (lim : Nat) (s : Str) :
    downgrade lim s = s ∨ (s = longMark ++ downgrade lim s) ∨
      ∃ t, s = longMark ++ uncMark ++ t ∧ downgrade lim s = bslash :: bslash :: t := by
  unfold downgrade
  split
  · rename_i hlong
    have hs : s = longMark ++ s.drop 4 := eq_of_take hlong.2
    split
    · rename_i hunc
      split
      · refine Or.inr (Or.inr ⟨s.drop 8, ?_, rfl⟩)
        have : s.drop 4 = uncMark ++ (s.drop 4).drop 4 := eq_of_take hunc.2
        rw [List.drop_drop] at this
        rw [List.append_assoc, ← this, ← hs]
      · exact Or.inl rfl
    · split
      · exact Or.inr (Or.inl hs)
      · exact Or.inl rfl
  · exact Or.inl rfl

/-- It brings in no drive. -/
theorem mem_of_downgrade {lim : Nat} {p : Str} (hp : p ≠ [])
    (h : p ∈ (components (downgrade lim s)).dropLast) : p ∈ (components s).dropLast := by
  rcases downgrade_cases lim s with he | he | ⟨t, he, hd⟩
  · rwa [he] at h
  · rw [he, components_longMark, List.dropLast_append_of_ne_nil (components_ne_nil _)]
    exact List.mem_append_right _ h
  · rw [hd, components_double, List.dropLast_append_of_ne_nil (components_ne_nil _)] at h
    rw [he, components_uncMark, List.dropLast_append_of_ne_nil (components_ne_nil _)]
    rcases List.mem_append.mp h with h | h
    · simp only [List.mem_cons, List.not_mem_nil, or_false, or_self] at h
      exact absurd h hp
    · exact List.mem_append_right _ h

/-- A text that starts with dots names no file. -/
theorem ntFile_dot (lim : Nat) (t : Str) : ntFile (downgrade lim (dot :: t)) = none := by
  have hhead : ∀ n m, (dot :: t).take (n + 1) ≠ bslash :: m := by
    intro n m he
    exact absurd (List.cons.inj he).1 (by decide)
  have hmark : driveMark (dot :: t) = false := by
    have : isAlpha dot.toNat = false := by decide
    simp [driveMark, alphaAt, this]
  have h8 : (dot :: t).take 8 ≠ longMark ++ uncMark := hhead 7 _
  have h4 : (dot :: t).take 4 ≠ longMark := hhead 3 _
  have h2 : (dot :: t).take 2 ≠ [bslash, bslash] := hhead 1 _
  have hdown : downgrade lim (dot :: t) = dot :: t := if_neg fun hc => h4 hc.2
  rw [hdown, ntFile, if_neg h8, if_neg h4, if_neg h2, hmark]
  rfl

theorem length_of_literal (h : literal qs = some ps) : ps.length ≤ qs.countP named := by
  obtain ⟨rs, hrs⟩ : ∃ rs, rs = if qs.getLast? = some [] then qs.dropLast else qs := ⟨_, rfl⟩
  have hsub : List.Sublist rs qs := by
    rw [hrs]
    split
    · exact List.dropLast_sublist qs
    · exact List.Sublist.refl qs
  simp only [literal, ← hrs] at h
  split at h
  · rename_i hall
    obtain rfl := Option.some.inj h
    have hcount : rs.countP named = rs.length := List.countP_eq_length.mpr (List.all_eq_true.mp hall)
    rw [← hcount]
    exact hsub.countP_le
  · cases h

theorem length_names (qs : List Str) : (names (qs.map move)).length = qs.countP named := by
  induction qs with
  | nil => rfl
  | cons q qs ih =>
    cases hm : move q with
    | stay =>
      have : names ((q :: qs).map move) = names (qs.map move) := by simp [names, hm]
      rw [this, ih, List.countP_cons_of_neg]
      simp [(named_eq_false q).mpr (Or.inl hm)]
    | up =>
      have : names ((q :: qs).map move) = names (qs.map move) := by simp [names, hm]
      rw [this, ih, List.countP_cons_of_neg]
      simp [(named_eq_false q).mpr (Or.inr hm)]
    | name p =>
      have : names ((q :: qs).map move) = p :: names (qs.map move) := by simp [names, hm]
      obtain ⟨-, h₁, h₂, h₃⟩ := move_name hm
      rw [this, List.length_cons, ih, List.countP_cons_of_pos]
      simp [named, h₁, h₂, h₃]

theorem length_resolved (qs : List Str) : (resolved qs).length ≤ qs.countP named := by
  have h := (net_sublist (qs.map move)).length_le
  rw [length_names, List.length_reverse] at h
  rw [resolved, clamp_eq_net, List.drop_nil, List.append_nil, List.length_reverse]
  exact h

/-- **A path on a share** has server and share in front, and no more files than names. -/
theorem ntFile_share_cases (h : ntFile s = some (.share a b, ps)) :
    isName a = true ∧ isName b = true ∧ ∃ t qs, components t = a :: b :: qs ∧
      ps.length ≤ qs.countP named ∧
      (s = longMark ++ uncMark ++ t ∨ (s.take 4 ≠ longMark ∧ s = bslash :: bslash :: t)) := by
  unfold ntFile at h
  split at h
  · rename_i hunc
    split at h
    · rename_i hc
      split at h
      · rename_i hname
        rw [Bool.and_eq_true] at hname
        obtain ⟨qs, hq, he⟩ := Option.map_eq_some_iff.mp h
        cases he
        exact ⟨hname.1, hname.2, s.drop 8, _, hc, length_of_literal hq, Or.inl (eq_of_take hunc)⟩
      · cases h
    · cases h
  · split at h
    · split at h
      · obtain ⟨qs, -, hq⟩ := Option.map_eq_some_iff.mp h
        cases hq
      · cases h
    · rename_i hlong
      split at h
      · rename_i hdouble
        split at h
        · rename_i hc
          split at h
          · rename_i hname
            rw [Bool.and_eq_true] at hname
            cases h
            exact ⟨hname.1, hname.2, s.drop 2, _, hc, length_resolved _, Or.inr ⟨hlong,
              eq_of_take (m := [bslash, bslash]) hdouble⟩⟩
          · cases h
        · cases h
      · split at h
        · cases h
        · cases h

/-- A last separator is no part of the share. -/
theorem split_end {pre : List Str} {e : Bool} (hb : b ≠ [])
    (h : L ++ (if e then [[]] else []) = pre ++ a :: b :: qs) :
    ∃ rs, L = pre ++ a :: b :: rs ∧ qs.countP named ≤ rs.length := by
  cases e with
  | false =>
    refine ⟨qs, ?_, List.countP_le_length⟩
    simpa using h
  | true =>
    rw [if_pos rfl] at h
    rcases List.eq_nil_or_concat' qs with rfl | ⟨rs, l, rfl⟩
    · have happ : pre ++ [a, b] = (pre ++ [a]) ++ [b] := by simp
      rw [happ] at h
      exact absurd (List.cons.inj (List.append_inj_right' h rfl)).1.symm hb
    · have happ : pre ++ a :: b :: (rs ++ [l]) = (pre ++ a :: b :: rs) ++ [l] := by simp
      rw [happ] at h
      obtain rfl : [] = l := (List.cons.inj (List.append_inj_right' h rfl)).1
      refine ⟨rs, List.append_inj_left' h rfl, ?_⟩
      have : named [] = false := rfl
      rw [List.countP_append, List.countP_singleton, this]
      exact List.countP_le_length

theorem components_joined {e : Bool} (hL : ∀ p ∈ L, Proper p) :
    components (bslash :: belowVol bslash L e) = [[], []] ++ (L ++ (if e then [[]] else [])) := by
  have h : components ([] ++ belowVol bslash L e) = [] :: L ++ (if e then [[]] else []) :=
    components_below isSlash_bslash (by simp) fun p hp => (hL p hp).noSlash
  rw [List.nil_append] at h
  rw [components_sep isSlash_bslash, h]
  rfl

/-- **A joined text on a share** has server and share among its own components. -/
theorem joined_share {lim : Nat} {e : Bool} (hL : ∀ p ∈ L, Proper p)
    (h : ntFile (downgrade lim (bslash :: belowVol bslash L e)) = some (.share a b, ps)) :
    isName a = true ∧ ∃ pre qs, L = pre ++ a :: b :: qs ∧ ps.length ≤ qs.length ∧
      (pre = [] ∨ pre = [[quest], unc] ∨ pre = [[quest], unc, [quest], unc]) := by
  obtain ⟨ha, hb, t, qs, ht, hlen, hs⟩ := ntFile_share_cases h
  have hb : b ≠ [] := by
    rintro rfl
    exact absurd hb (by decide)
  have hcomp := @components_joined L e hL
  refine ⟨ha, ?_⟩
  have hend : ∀ pre, (pre = [] ∨ pre = [[quest], unc] ∨ pre = [[quest], unc, [quest], unc]) →
      components (bslash :: belowVol bslash L e) = [[], []] ++ (pre ++ a :: b :: qs) →
      ∃ pre qs, L = pre ++ a :: b :: qs ∧ ps.length ≤ qs.length ∧
        (pre = [] ∨ pre = [[quest], unc] ∨ pre = [[quest], unc, [quest], unc]) := by
    intro pre hpre he
    rw [hcomp] at he
    obtain ⟨rs, hrs, hle⟩ := split_end hb (List.append_cancel_left he)
    exact ⟨pre, rs, hrs, by omega, hpre⟩
  rcases downgrade_cases lim (bslash :: belowVol bslash L e) with he | he | ⟨u, he, hd⟩
  · rw [he] at hs
    rcases hs with hs | ⟨-, hs⟩
    · exact hend [[quest], unc] (Or.inr (Or.inl rfl)) (by rw [hs, components_uncMark, ht]; rfl)
    · exact hend [] (Or.inl rfl) (by rw [hs, components_double, ht]; rfl)
  · -- behind `\\?\` alone there is no separator to start with
    exfalso
    have hsep : ∃ y x rest, downgrade lim (bslash :: belowVol bslash L e) = y :: x :: rest ∧
        isSlash y = true ∧ isSlash x = true := by
      rcases hs with hs | ⟨-, hs⟩
      · exact ⟨bslash, bslash, _, hs, isSlash_bslash, isSlash_bslash⟩
      · exact ⟨bslash, bslash, _, hs, isSlash_bslash, isSlash_bslash⟩
    obtain ⟨y, x, rest, hrest, hy, hx⟩ := hsep
    rw [he, components_longMark, hrest, components_sep hy, components_sep hx] at hcomp
    have hcomp : [[], []] ++ ([quest] :: [] :: [] :: components rest) =
        [[], []] ++ (L ++ (if e then [[]] else [])) := hcomp
    have hcomp := List.append_cancel_left hcomp
    obtain ⟨q, qs', hq⟩ := List.exists_cons_of_ne_nil (components_ne_nil rest)
    match L, hL, hcomp with
    | [], _, hcomp =>
      cases e <;> simp at hcomp
    | [p], _, hcomp =>
      cases e <;> simp at hcomp
    | p :: q :: L, hL, hcomp =>
      have : q = [] := (List.cons.inj (List.cons.inj hcomp).2).1.symm
      exact (hL q (by simp)).ne_nil this
  · rw [hd] at hs
    rcases hs with hs | ⟨-, hs⟩
    · refine hend [[quest], unc, [quest], unc] (Or.inr (Or.inr rfl)) ?_
      have hu : components u = [[quest], unc] ++ a :: b :: qs := by
        have := congrArg components hs
        rw [components_double, components_uncMark, ht] at this
        exact List.append_cancel_left (show [[], []] ++ components u = [[], []] ++ _ from this)
      rw [he, components_uncMark, hu]
      rfl
    · refine hend [[quest], unc] (Or.inr (Or.inl rfl)) ?_
      obtain rfl : u = t := (List.cons.inj (List.cons.inj hs).2).2
      rw [he, components_uncMark, ht]
      rfl

/-- Names under a server are a share and its files. -/
theorem ntFile_names (lim : Nat) {server n : Str} (hs : IsServer server)
    (hp : ∀ p ∈ n :: ps, Proper p) (e : Bool) :
    ntFile (downgrade lim (longMark ++ uncMark ++ (server ++ belowVol bslash (n :: ps) e))) =
      if isName n then some (.share server n, ps) else none := by
  have hcomp : components (server ++ belowVol bslash (n :: ps) e) =
      server :: n :: (ps ++ (if e then [[]] else [])) := by
    rw [components_below isSlash_bslash hs.proper.noSlash fun p h => (hp p h).noSlash]
    rfl
  exact ntFile_downgrade_share_if lim hs hcomp (Reads.of_below fun p h => hp p (by simp [h]))

/-- The server is what the text starts with. -/
theorem server_of_dot {lim : Nat}
    (h : ntFile (downgrade lim (longMark ++ uncMark ++ dot :: t)) = some (.share a b, ps)) :
    a.getD 0 0 = dot := by
  obtain ⟨ha, -, u, qs, hu, -, hs⟩ := ntFile_share_cases h
  rw [downgrade_share lim (by simp)] at hs
  have heq : dot :: t = u := by
    split at hs
    · rcases hs with hs | ⟨-, hs⟩
      · have := congrArg (fun l => l.getD 2 0) hs
        exact absurd this (by simp [longMark, dot, quest])
      · exact (List.cons.inj (List.cons.inj hs).2).2
    · rcases hs with hs | ⟨hlong, -⟩
      · exact List.append_cancel_left hs
      · exact absurd rfl hlong
  obtain ⟨-, rest, -, hrest⟩ := eq_of_head_components (w := u) (q := a) (by rw [hu]; rfl)
  rw [← heq] at hrest
  cases a with
  | nil => exact absurd ha (by decide)
  | cons x a => exact (List.cons.inj hrest).1.symm

end Texts

end ApeShim.Nt
