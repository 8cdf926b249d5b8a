import ApeShim.Nt.Realpath

/-!
Paths on a share through `realpath` and through `__mkntpath2`. The names a path
comes to are read off its moves; both sides are texts made of these names.
-/

namespace ApeShim.Nt
open Walk

/-! ## The names a path comes to -/

section Names

variable {w : Str}

theorem names_sublist (ps : List Str) : List.Sublist (names (ps.map move)) ps := by
  induction ps with
  | nil => exact List.Sublist.slnil
  | cons p ps ih =>
    cases hm : move p with
    | stay =>
      have : names ((p :: ps).map move) = names (ps.map move) := by simp [names, hm]
      rw [this]
      exact ih.cons p
    | up =>
      have : names ((p :: ps).map move) = names (ps.map move) := by simp [names, hm]
      rw [this]
      exact ih.cons p
    | name q =>
      obtain rfl := (move_name hm).1
      have : names ((q :: ps).map move) = q :: names (ps.map move) := by simp [names, hm]
      rw [this]
      exact ih.cons_cons q

theorem mem_names {ps : List Str} {p : Str} (hp : p ∈ names (ps.map move)) :
    p ∈ ps ∧ move p = .name p := by
  refine ⟨(names_sublist ps).subset hp, ?_⟩
  simp only [names, List.mem_filterMap, List.mem_map] at hp
  obtain ⟨m, ⟨q, -, rfl⟩, hm⟩ := hp
  cases hq : move q with
  | stay => simp [hq] at hm
  | up => simp [hq] at hm
  | name x =>
    obtain rfl := (move_name hq).1
    rw [hq] at hm
    cases hm
    exact hq

/-- The names left are proper components of the path. -/
theorem mem_net {p : Str} (hp : p ∈ (net (moves w)).2) : p ∈ components w ∧ Proper p := by
  have h := (net_sublist (moves w)).subset (List.mem_reverse.mpr hp)
  obtain ⟨hmem, hm⟩ := mem_names h
  exact ⟨hmem, proper_of_mem_components hmem hm⟩

/-- All but the newest come from before the last component, and so does the newest
where the last component is no name. -/
theorem mem_net_front {ps : List Str} {l p : Str}
    (h : p ∈ (net ((ps ++ [l]).map move)).2.tail ∨
      ((∀ q, move l ≠ .name q) ∧ p ∈ (net ((ps ++ [l]).map move)).2)) : p ∈ ps := by
  have hfront : ∀ p ∈ (net (ps.map move)).2, p ∈ ps := by
    intro p hp
    exact (names_sublist ps).subset ((net_sublist (ps.map move)).subset (List.mem_reverse.mpr hp))
  have hsplit : (net ((ps ++ [l]).map move)).2 =
      (netFrom (net (ps.map move)).1 (net (ps.map move)).2 [move l]).2 := by
    rw [List.map_append, net, netFrom_append]
    rfl
  rw [hsplit] at h
  generalize net (ps.map move) = n at hfront h
  obtain ⟨k, R⟩ := n
  cases hm : move l with
  | stay =>
    rw [hm] at h
    exact hfront p (h.elim List.mem_of_mem_tail And.right)
  | up =>
    rw [hm] at h
    cases R with
    | nil => simp [netFrom] at h
    | cons r R =>
      have h : p ∈ R.tail ∨ ((∀ q, Move.up ≠ Move.name q) ∧ p ∈ R) := h
      exact hfront p (List.mem_cons_of_mem r (h.elim List.mem_of_mem_tail And.right))
  | name q =>
    rw [hm] at h
    rcases h with h | ⟨h, -⟩
    · exact hfront p h
    · exact absurd rfl (h q)

end Names

/-! ## Marks and names -/

/-- "X:", an absolute segment before a separator. -/
def IsDriveName (p : Str) : Prop := ∃ c, isAlpha c.toNat = true ∧ p = [c, colon]

theorem noMarks_suffix {prev : Option UInt16} {a b : Str} (h : noMarks prev (a ++ b) = true) :
    noMarks ((a.getLast?).or prev) b = true := by
  induction a generalizing prev with
  | nil => simpa using h
  | cons c a ih =>
    rw [List.cons_append, noMarks, Bool.and_eq_true] at h
    have := ih h.2
    cases a with
    | nil => simpa using this
    | cons d a =>
      rw [List.getLast?_cons_cons]
      cases hl : (d :: a).getLast? with
      | none => simp at hl
      | some e => simpa [hl] using this

/-- A path without marks has no drive name before a separator. -/
theorem not_driveName {prev : Option UInt16} (hprev : prev.all isSlash = true) {w : Str}
    (h : noMarks prev w = true) : ∀ p ∈ (components w).dropLast, ¬ IsDriveName p := by
  induction w using pieces_induction isSlash generalizing prev with
  | last w hw =>
    rw [components_last hw]
    simp
  | step p s rest hp hs ih =>
    obtain ⟨q, qs, hq⟩ : ∃ q qs, components rest = q :: qs :=
      List.exists_cons_of_ne_nil (components_ne_nil rest)
    have hrest : noMarks (some s) rest = true := by
      have : p ++ s :: rest = (p ++ [s]) ++ rest := by simp
      rw [this] at h
      simpa using noMarks_suffix h
    have ih := ih (by simpa using hs) hrest
    rw [components_cons hp hs, hq, List.dropLast_cons_cons, ← hq]
    intro r hr
    rcases List.mem_cons.mp hr with rfl | hr
    · rintro ⟨c, hc, rfl⟩
      rw [List.cons_append, noMarks, Bool.and_eq_true] at h
      have : markAt prev (c :: ([colon] ++ s :: rest)) = true := by
        simp [markAt, hprev, driveMark, alphaAt, slashAt, hc, hs]
      rw [this] at h
      exact absurd h.1 (by decide)
    · exact ih r hr

theorem noMarks_inside {a rest : Str} (ha : ∀ x ∈ a, isSlash x = false)
    (h : ∀ x, isSlash x = false → noMarks (some x) rest = true) {c : UInt16}
    (hc : isSlash c = false) : noMarks (some c) (a ++ rest) = true := by
  induction a generalizing c with
  | nil => exact h c hc
  | cons d a ih =>
    have : markAt (some c) (d :: (a ++ rest)) = false := by simp [markAt, hc]
    rw [List.cons_append, noMarks, this]
    exact ih (fun x hx => ha x (by simp [hx])) (ha d (by simp))

/-- A name and what follows it. -/
theorem noMarks_name {p rest : Str} (hp : Proper p) (hr : Below rest)
    (hd : rest ≠ [] → ¬ IsDriveName p)
    (h : ∀ x, isSlash x = false → noMarks (some x) rest = true) (prev : Option UInt16) :
    noMarks prev (p ++ rest) = true := by
  have hdrive : driveMark (p ++ rest) = false := by
    by_contra hc
    simp only [driveMark, Bool.not_eq_false, Bool.and_eq_true, decide_eq_true_eq] at hc
    obtain ⟨⟨halpha, hcolon⟩, hslash⟩ := hc
    rcases p with _ | ⟨c, _ | ⟨d, _ | ⟨e, p⟩⟩⟩
    · exact hp.ne_nil rfl
    · cases rest with
      | nil => exact absurd (show (0 : UInt16) = colon from hcolon) (by decide)
      | cons d rest =>
        have hd : isSlash d = true := hr d rfl
        have : d = colon := hcolon
        rw [this] at hd
        exact absurd hd (by decide)
    · cases rest with
      | nil => exact absurd (show isSlash 0 = true from hslash) (by decide)
      | cons e rest =>
        have : d = colon := hcolon
        exact hd (by simp) ⟨c, halpha, by rw [this]⟩
    · have := hp.noSlash e (by simp)
      have hslash : isSlash e = true := hslash
      rw [this] at hslash
      cases hslash
  cases p with
  | nil => exact absurd rfl hp.ne_nil
  | cons c p =>
    have hc := hp.noSlash c (by simp)
    have hpair : pairMark (c :: (p ++ rest)) = false := by simp [pairMark, ne_bslash hc]
    have hmark : markAt prev (c :: (p ++ rest)) = false := by
      have hdrive : driveMark (c :: (p ++ rest)) = false := hdrive
      simp [markAt, hdrive, hpair]
    rw [List.cons_append, noMarks, hmark]
    exact noMarks_inside (fun x hx => hp.noSlash x (by simp [hx])) h hc

/-- Names behind separators hold no mark, where only the last may look like a drive. -/
theorem noMarks_spell {sep : UInt16} (hsep : isSlash sep = true) {ps : List Str} {t : Bool}
    (hp : ∀ p ∈ ps, Proper p) (hd : ∀ p ∈ ps.dropLast, ¬ IsDriveName p)
    (ht : t = true → ∀ p ∈ ps, ¬ IsDriveName p) {x : UInt16} (hx : isSlash x = false) :
    noMarks (some x) (belowVol sep ps t) = true := by
  have hmark : ∀ w : Str, markAt (some x) w = false := by
    intro w
    simp [markAt, hx]
  induction ps generalizing x with
  | nil =>
    cases t with
    | false => rfl
    | true =>
      show noMarks (some x) [sep] = true
      rw [noMarks, hmark]
      rfl
  | cons p ps ih =>
    have hcons : belowVol sep (p :: ps) t = sep :: (p ++ belowVol sep ps t) := by
      simp [belowVol, spell]
    rw [hcons, noMarks, hmark]
    refine noMarks_name (hp p (by simp)) (below_belowVol hsep) ?_ ?_ (some sep)
    · intro hne
      cases ps with
      | cons q ps => exact hd p (by simp)
      | nil =>
        cases t with
        | true => exact ht rfl p (by simp)
        | false => exact absurd rfl hne
    · intro y hy
      refine ih (fun q hq => hp q (by simp [hq])) ?_ (fun h q hq => ht h q (by simp [hq])) hy ?_
      · intro q hq
        cases ps with
        | nil => simp at hq
        | cons r ps => exact hd q (by simp [List.dropLast_cons_cons, hq])
      · intro w
        simp [markAt, hy]

/-! ## What a path weighs -/

/-- The length of a text in units or in bytes. -/
def weight (f : UInt16 → Nat) (w : Str) : Nat := (w.map f).sum

section Weight

variable {f : UInt16 → Nat} {w rest : Str}

theorem weight_append (a b : Str) : weight f (a ++ b) = weight f a + weight f b := by
  simp [weight]

theorem weight_cons (c : UInt16) (a : Str) : weight f (c :: a) = f c + weight f a := by
  simp [weight]

theorem weight_one (w : Str) : weight (fun _ => 1) w = w.length := by
  simp [weight]

theorem weight_spell {sep : UInt16} (hsep : f sep = 1) (ps : List Str) :
    weight f (spell sep ps) = (ps.map fun p => weight f p + 1).sum := by
  induction ps with
  | nil => rfl
  | cons p ps ih =>
    rw [spell_cons, weight_cons, weight_append, ih, hsep, List.map_cons, List.sum_cons]
    omega

theorem weight_components (hf : ∀ c, isSlash c = true → f c = 1) (w : Str) :
    ((components w).map fun p => weight f p + 1).sum = weight f w + 1 := by
  induction w using pieces_induction isSlash with
  | last w h =>
    rw [components_last h]
    simp
  | step p c rest h hc ih =>
    rw [components_cons h hc, List.map_cons, List.sum_cons, ih, weight_append, weight_cons, hf c hc]
    omega

/-- The names a path comes to weigh no more than the path. -/
theorem weight_net_le (hf : ∀ c, isSlash c = true → f c = 1) (hw : Below w) (sep : UInt16)
    (hsep : isSlash sep = true) :
    weight f (spell sep (net (moves w)).2.reverse) ≤ weight f w := by
  rw [weight_spell (hf sep hsep)]
  cases w with
  | nil => rfl
  | cons c w =>
    have hc := hw c rfl
    have hsub : List.Sublist (net (moves (c :: w))).2.reverse (components w) := by
      rw [moves_sep hc]
      exact (net_sublist (moves w)).trans (names_sublist _)
    have hsum := weight_components hf w
    rw [weight_cons, hf c hc, Nat.add_comm, ← hsum]
    exact (hsub.map _).sum_le_sum fun _ _ => Nat.zero_le _

/-- **`__normuncrest`** writes the names its moves come to, and climbs where they go up. -/
theorem normuncrest_net (rest : Str) :
    normuncrest rest = (belowVol bslash (net (moves rest)).2.reverse
      (rest.getLast?.any isSlash && !(net (moves rest)).2.isEmpty),
      decide (0 < (net (moves rest)).1)) := by
  have hclamp : clamp [] ((components rest).map move) = (net (moves rest)).2 := by
    rw [clamp_eq_net, List.drop_nil, List.append_nil]
    rfl
  have hclimbs : climbs [] ((components rest).map move) = decide (0 < (net (moves rest)).1) := by
    rw [Bool.eq_iff_iff, climbs_iff, decide_eq_true_eq]
    rfl
  simp only [normuncrest, uncLoop_eq, hclamp, hclimbs, Bool.false_or]
  have hbody : ((net (moves rest)).2.reverse.flatMap fun c => bslash :: c) =
      spell bslash (net (moves rest)).2.reverse := rfl
  rw [hbody]
  cases hR : (net (moves rest)).2 with
  | nil => simp [belowVol, spell]
  | cons r R =>
    have hne : (spell bslash (r :: R).reverse).isEmpty = false := by
      simp [spell]
    rw [hne]
    cases rest.getLast?.any isSlash <;> simp [belowVol]

theorem net_trailing (w : Str) {c : UInt16} (hc : isSlash c = true) :
    net (moves (w ++ [c])) = net (moves w) := by
  have : moves (w ++ [c]) = moves w ++ [.stay] := by
    rw [moves, components_trailing w hc, List.map_append]
    rfl
  rw [this, net, netFrom_append]
  rfl

theorem weight_body_le (hf : ∀ c, isSlash c = true → f c = 1) (hr : Below rest) :
    weight f (normuncrest rest).1 ≤ weight f rest := by
  rw [normuncrest_net, belowVol, weight_append]
  cases ht : rest.getLast?.any isSlash with
  | false => simpa [weight] using weight_net_le hf hr bslash isSlash_bslash
  | true =>
    obtain ⟨w, c, rfl⟩ := (List.eq_nil_or_concat' rest).resolve_left (by
      rintro rfl
      simp at ht)
    have hc : isSlash c = true := by simpa using ht
    have hw : Below w := by
      cases w with
      | nil => simp [Below]
      | cons d w => exact hr
    have := weight_net_le hf hw bslash isSlash_bslash
    rw [net_trailing w hc, weight_append, weight_cons, hf c hc]
    have hlast : weight f (if (true && !(net (moves w)).2.isEmpty) = true then [bslash] else []) ≤ 1 := by
      split
      · rw [weight_cons, hf bslash isSlash_bslash]
        rfl
      · exact Nat.zero_le 1
    omega

end Weight

/-! ## Converting a share path of names -/

/-- `UncRootLen` takes "server/share" as a root. -/
def Short (server name : Str) : Prop := width8 (shareRoot slash server name) < uncRootLenMax

instance (server name : Str) : Decidable (Short server name) :=
  inferInstanceAs (Decidable (_ < _))

/-- `\\?\UNC\server` and names below. -/
def converted (server : Str) (ps : List Str) : Str :=
  longMark ++ uncMark ++ (server ++ spell bslash ps)

section Convert

variable {env : Env} {server n : Str} {ps : List Str} {sep : UInt16}

theorem unitWidth_sep {c : UInt16} (hc : isSlash c = true) : unitWidth c = 1 := by
  simp only [isSlash, Bool.or_eq_true, decide_eq_true_eq] at hc
  rcases hc with rfl | rfl <;> decide

theorem width8_root (hsep : isSlash sep = true) :
    width8 (shareRoot sep server n) = width8 (shareRoot slash server n) := by
  simp [shareRoot, width8, unitWidth_sep hsep, unitWidth_sep isSlash_slash]

theorem noMarks_double (w : Str) : noMarks none (slash :: slash :: w) = noMarks (some slash) w := by
  have h₁ : isAlpha slash.toNat = false := by decide
  have h₂ : slash ≠ bslash := by decide
  simp [noMarks, markAt, driveMark, pairMark, alphaAt, h₁, h₂]

theorem noMarks_sharePath (hsep : isSlash sep = true) (hs : IsServer server)
    (hp : ∀ p ∈ n :: ps, Proper p) {t : Bool} (hserver : ¬ IsDriveName server)
    (hd : ∀ p ∈ (n :: ps).dropLast, ¬ IsDriveName p)
    (ht : t = true → ∀ p ∈ n :: ps, ¬ IsDriveName p) :
    noMarks none (sharePath sep server n (belowVol sep ps t)) = true := by
  have happ : shareRoot sep server n ++ belowVol sep ps t =
      server ++ belowVol sep (n :: ps) t := by
    simp [shareRoot, belowVol, spell]
  rw [sharePath, noMarks_double, happ]
  refine noMarks_name hs.proper (below_belowVol hsep) (fun _ => hserver) ?_ (some slash)
  intro x hx
  exact noMarks_spell hsep hp hd ht hx

/-- **A share path of names** keeps them, and its last separator where something is
below the root that is found. -/
theorem mkntpath2From_names (fuel : Nat) (roots : Roots) (hsep : isSlash sep = true)
    (hs : IsServer server) (hp : ∀ p ∈ n :: ps, Proper p) {t : Bool}
    (hm : noMarks none (sharePath sep server n (belowVol sep ps t)) = true)
    (hplain : Short server n ∨ Plain (shareRoot sep server n ++ belowVol sep ps t))
    (hlen : (shareRoot sep server n ++ belowVol sep ps t).length < min 32767 env.pathMax - 9) :
    (env.mkntpath2From (fuel + 1) roots (sharePath sep server n (belowVol sep ps t))).2 =
      .ok (downgrade 244 (converted server (n :: ps) ++
        (if t && (!decide (Short server n) || !ps.isEmpty) then [bslash] else []))) := by
  have hn := hp n (by simp)
  have hps : ∀ p ∈ ps, Proper p := fun p h => hp p (by simp [h])
  have hbelow : Below (belowVol sep ps t) := below_belowVol hsep
  rw [List.length_append] at hlen
  by_cases hw : Short server n
  · have hw' : width8 (shareRoot sep server n) < uncRootLenMax := by
      rw [width8_root hsep]
      exact hw
    rw [env.mkntpath2From_share fuel roots hsep hs hn hbelow hw' hm, if_neg (by omega),
      normuncrest_names hsep hps, if_neg (by simp)]
    simp [sharePre, converted, belowVol, spell, hw]
  · have hw' : ¬ width8 (shareRoot sep server n) < uncRootLenMax := by
      rw [width8_root hsep]
      exact hw
    have hcomp : components (shareRoot sep server n ++ belowVol sep ps t) =
        server :: n :: ps ++ (if t then [[]] else []) := by
      rw [shareRoot, List.append_assoc, List.cons_append, components_cons hs.proper.noSlash hsep,
        components_below hsep hn.noSlash fun p h => (hps p h).noSlash]
      rfl
    have hall : ∀ p ∈ server :: n :: ps, Proper p := by
      intro p h
      rcases List.mem_cons.mp h with rfl | h
      · exact hs.proper
      · exact hp p h
    rw [env.mkntpath2From_share_long fuel roots hsep hs hn hbelow hw' hm,
      if_neg (by rw [List.length_append]; omega),
      normntpath_names (hplain.resolve_left hw) hall hcomp]
    simp [converted, belowVol, hw]

end Convert

end ApeShim.Nt
