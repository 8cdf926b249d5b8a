import ApeShim.Lib.Keyed
import ApeShim.Nt.Reroot
import ApeShim.Nt.LongPaths

/-!
The shares `shim/mkntpath.c` remembers, and the paths it takes for a share whose second
slash is lost: those that start with a root seen, and those that are the server of one.
-/

namespace ApeShim.Nt

/-! ## Up to case and separators -/

/-- What is compared of a unit: the separators are one, and the ASCII letters have one case. -/
def caseless (c : UInt16) : Nat := if isSlash c then slash.toNat else lower16 c

def folded (s : Str) : List Nat := s.map caseless

theorem folded_append (a b : Str) : folded (a ++ b) = folded a ++ folded b := List.map_append

theorem length_of_folded {a b : Str} (h : folded a = folded b) : a.length = b.length := by
  simpa [folded] using congrArg List.length h

theorem isSlash_toNat (c : UInt16) : isSlash c = true ↔ c.toNat = 0x2F ∨ c.toNat = 0x5C := by
  simp [isSlash, ← UInt16.toNat_inj, slash, bslash]

section Units

variable {a b : UInt16}

/-- Units that compare equal are the same unit, the two separators, or one letter. -/
theorem caseless_eq_iff : caseless a = caseless b ↔
    (isSlash a = true ∧ isSlash b = true) ∨ lower16 a = lower16 b := by
  have ha := isSlash_toNat a
  have hb := isSlash_toNat b
  have hs : slash.toNat = 0x2F := rfl
  simp only [caseless, lower16, lower, hs]
  by_cases h : isSlash a = true
  · by_cases h' : isSlash b = true
    · simp [h, h']
    · simp only [h, h', if_true, Bool.false_eq_true, if_false, and_false, false_or]
      have := ha.mp h
      have := mt hb.mpr h'
      split <;> split <;> omega
  · by_cases h' : isSlash b = true
    · simp only [h, h', if_true, Bool.false_eq_true, if_false, false_and, false_or]
      have := mt ha.mpr h
      have := hb.mp h'
      split <;> split <;> omega
    · simp [h, h']

theorem caseless_cases (h : caseless a = caseless b) :
    a = b ∨ ((isSlash a = true ↔ isSlash b = true) ∧ a.toNat < 0x80 ∧ b.toNat < 0x80 ∧
      (isSlash a = true ∨ 0x41 ≤ a.toNat ∧ 0x41 ≤ b.toNat)) := by
  have ha := isSlash_toNat a
  have hb := isSlash_toNat b
  rcases caseless_eq_iff.mp h with ⟨h, h'⟩ | h
  · right
    have := ha.mp h
    have := hb.mp h'
    exact ⟨⟨fun _ => h', fun _ => h⟩, by omega, by omega, Or.inl h⟩
  · simp only [lower16, lower] at h
    by_cases he : a = b
    · exact Or.inl he
    · right
      have : a.toNat ≠ b.toNat := fun h => he (UInt16.toNat_inj.mp h)
      rw [ha, hb]
      split at h <;> split at h <;> omega

theorem isSlash_of_caseless (h : caseless a = caseless b) : isSlash a = isSlash b := by
  rcases caseless_cases h with rfl | h
  · rfl
  · exact Bool.eq_iff_iff.mpr h.1

theorem unitWidth_of_caseless (h : caseless a = caseless b) : unitWidth a = unitWidth b := by
  rcases caseless_cases h with rfl | ⟨-, ha, hb, -⟩
  · rfl
  · have ha' : a < 0x80 := UInt16.lt_iff_toNat_lt.mpr ha
    have hb' : b < 0x80 := UInt16.lt_iff_toNat_lt.mpr hb
    rw [unitWidth, unitWidth, if_pos ha', if_pos hb']

/-- A unit that is no separator and no letter is only equal to itself. -/
theorem eq_of_caseless (h : caseless a = caseless b) (hs : isSlash b = false)
    (hb : b.toNat < 0x41) : a = b := by
  rcases caseless_cases h with rfl | ⟨hiff, -, -, ha | ⟨-, hb'⟩⟩
  · rfl
  · rw [hiff, hs] at ha
    cases ha
  · omega

end Units

section Texts

variable {s t : Str}

theorem folded_cons_iff {c : UInt16} :
    folded s = folded (c :: t) ↔
      ∃ d u, s = d :: u ∧ caseless d = caseless c ∧ folded u = folded t := by
  cases s with
  | nil => simp [folded]
  | cons d u => simp [folded]

theorem folded_append_iff {u : Str} :
    folded s = folded (t ++ u) ↔ ∃ a b, s = a ++ b ∧ folded a = folded t ∧ folded b = folded u := by
  rw [folded_append]
  exact List.map_eq_append_iff

theorem mem_folded {c : UInt16} (h : folded s = folded t) (hc : c ∈ s) :
    ∃ d ∈ t, caseless c = caseless d := by
  have hmem : caseless c ∈ folded t := h ▸ List.mem_map_of_mem hc
  obtain ⟨d, hd, he⟩ := List.mem_map.mp hmem
  exact ⟨d, hd, he.symm⟩

theorem width8_of_folded (h : folded s = folded t) : width8 s = width8 t := by
  induction t generalizing s with
  | nil =>
    obtain rfl : s = [] := List.map_eq_nil_iff.mp h
    rfl
  | cons c t ih =>
    obtain ⟨d, u, rfl, hd, hu⟩ := folded_cons_iff.mp h
    have := ih hu
    simp only [width8, List.map_cons, List.sum_cons, unitWidth_of_caseless hd] at this ⊢
    omega

/-- Without separators and letters below `A`, a text is only equal to itself. -/
theorem eq_of_folded (h : folded s = folded t)
    (ht : ∀ c ∈ t, isSlash c = false ∧ c.toNat < 0x41) : s = t := by
  induction t generalizing s with
  | nil => exact List.map_eq_nil_iff.mp h
  | cons c t ih =>
    obtain ⟨d, u, rfl, hd, hu⟩ := folded_cons_iff.mp h
    have hc := ht c (by simp)
    rw [eq_of_caseless hd hc.1 hc.2, ih hu fun x hx => ht x (by simp [hx])]

theorem proper_of_folded (h : folded s = folded t) (ht : Proper t) : Proper s where
  ne_nil := by
    rintro rfl
    exact ht.ne_nil (List.map_eq_nil_iff.mp h.symm)
  noSlash := by
    intro c hc
    obtain ⟨d, hd, he⟩ := mem_folded h hc
    rw [isSlash_of_caseless he, ht.noSlash d hd]
  ne_dot := by
    rintro rfl
    exact ht.ne_dot (eq_of_folded h.symm (by decide))
  ne_dotdot := by
    rintro rfl
    exact ht.ne_dotdot (eq_of_folded h.symm (by decide))

theorem isServer_of_folded (h : folded s = folded t) (ht : IsServer t) : IsServer s where
  proper := proper_of_folded h ht.proper
  ne_quest := by
    intro hq
    cases t with
    | nil => exact ht.proper.ne_nil rfl
    | cons c t =>
      obtain ⟨d, u, rfl, hd, -⟩ := folded_cons_iff.mp h
      obtain rfl : d = quest := hq
      exact ht.ne_quest (eq_of_caseless hd.symm (by decide) (by decide))
  ne_dot := by
    intro hq
    cases t with
    | nil => exact ht.proper.ne_nil rfl
    | cons c t =>
      obtain ⟨d, u, rfl, hd, -⟩ := folded_cons_iff.mp h
      obtain rfl : d = dot := hq
      exact ht.ne_dot (eq_of_caseless hd.symm (by decide) (by decide))

end Texts

/-! ## Roots -/

/-- "server/share", short enough to be remembered. -/
def IsRoot (r : Str) : Prop :=
  ∃ sep server name, isSlash sep = true ∧ IsServer server ∧ Proper name ∧
    r = shareRoot sep server name ∧ width8 r < uncRootLenMax

section Roots

variable {r s p rest : Str}

theorem IsRoot.uncRootLen (h : IsRoot r) (hr : Below rest) : uncRootLen (r ++ rest) = r.length := by
  obtain ⟨sep, server, name, hsep, hs, hn, rfl, hw⟩ := h
  rw [uncRootLen_share hsep hs hn hr, if_pos hw]

theorem IsRoot.of_folded (hr : IsRoot r) (h : folded s = folded r) : IsRoot s := by
  obtain ⟨sep, server, name, hsep, hs, hn, rfl, hw⟩ := hr
  have hlen := width8_of_folded h
  obtain ⟨server', tail, rfl, hs', htail⟩ := folded_append_iff.mp h
  obtain ⟨sep', name', rfl, hsep', hn'⟩ := folded_cons_iff.mp htail
  refine ⟨sep', server', name', (isSlash_of_caseless hsep').trans hsep, isServer_of_folded hs' hs,
    proper_of_folded hn' hn, rfl, ?_⟩
  rw [hlen]
  exact hw

theorem IsRoot.ne_nil (h : IsRoot r) : r ≠ [] := by
  obtain ⟨sep, server, name, -, -, -, rfl, -⟩ := h
  simp [shareRoot]

theorem IsRoot.slashAt_zero (h : IsRoot r) (rest : Str) : slashAt (r ++ rest) 0 = false := by
  obtain ⟨sep, server, name, -, hs, -, rfl, -⟩ := h
  rw [shareRoot, List.append_assoc]
  exact hs.proper.slashAt_zero _

/-- A text is its first component and what starts with a separator. -/
theorem split_component (p : Str) :
    ∃ a b, p = a ++ b ∧ (p.takeWhile fun c => !isSlash c) = a ∧ (∀ x ∈ a, isSlash x = false) ∧
      Below b := by
  refine ⟨_, _, List.takeWhile_append_dropWhile.symm, rfl, ?_, ?_⟩
  · intro x hx
    simpa using List.mem_takeWhile_imp hx
  · intro c hc
    have := List.head?_dropWhile_not (fun c => !isSlash c) p
    rw [Option.mem_def.mp hc] at this
    simpa using this

/-- What starts as `UncRootLen` asks is a server. -/
theorem isServer_of_start {server tail : Str} (hserver : ∀ x ∈ server, isSlash x = false)
    (htail : Below tail) (hslash : slashAt (server ++ tail) 0 = false)
    (hne : server ++ tail ≠ []) (hquest : (server ++ tail).getD 0 0 ≠ quest)
    (hdot : (server ++ tail).getD 0 0 ≠ dot) : IsServer server := by
  cases server with
  | nil =>
    cases tail with
    | nil => exact absurd rfl hne
    | cons c tail => exact absurd (htail c rfl) (by simpa [slashAt] using hslash)
  | cons c server =>
    have hquest : c ≠ quest := hquest
    have hdot : c ≠ dot := hdot
    refine ⟨⟨List.cons_ne_nil _ _, hserver, ?_, ?_⟩, hquest, hdot⟩
    · exact fun h => hdot (List.cons.inj h).1
    · exact fun h => hdot (List.cons.inj h).1

/-- What `UncRootLen` measures is a root, up to a separator or the end. -/
theorem uncRootLen_root (h : uncRootLen p ≠ 0) :
    ∃ r rest, p = r ++ rest ∧ uncRootLen p = r.length ∧ IsRoot r ∧ Below rest := by
  obtain ⟨server, tail, rfl, htake, hserver, htail⟩ := split_component p
  rw [Nt.uncRootLen, htake] at h
  split at h
  · exact absurd rfl h
  rename_i hstart
  simp only [not_or, Bool.not_eq_true] at hstart
  obtain ⟨hne, hslash, hquest, hdot⟩ := hstart
  have hs := isServer_of_start hserver htail hslash hne hquest hdot
  cases tail with
  | nil => simp at h
  | cons sep q =>
    have hsep : isSlash sep = true := htail sep rfl
    have hdrop : (server ++ sep :: q).drop (server.length + 1) = q := by
      rw [List.drop_append, List.drop_eq_nil_of_le (by omega)]
      simp
    simp only [hdrop] at h
    split at h
    · exact absurd rfl h
    rename_i hmiddle
    simp only [not_or] at hmiddle
    obtain ⟨name, rest, rfl, htake', hname, hrest⟩ := split_component q
    rw [htake'] at h
    split at h
    · exact absurd rfl h
    rename_i hend
    simp only [not_or] at hend
    have hn : Proper name := by
      refine ⟨?_, hname, hend.1, hend.2⟩
      rintro rfl
      cases rest with
      | nil => exact hmiddle.1 rfl
      | cons c rest => exact hmiddle.2 (hrest c rfl)
    have happ : server ++ sep :: (name ++ rest) = shareRoot sep server name ++ rest := by
      simp [shareRoot]
    have hlen : server.length + 1 + name.length = (shareRoot sep server name).length := by
      simp [shareRoot]
      omega
    rw [happ, hlen, List.take_left] at h
    split at h
    · rename_i hw
      have hroot : IsRoot (shareRoot sep server name) := ⟨sep, server, name, hsep, hs, hn, rfl, hw⟩
      exact ⟨_, rest, happ, by rw [happ, hroot.uncRootLen hrest], hroot, hrest⟩
    · exact absurd rfl h

theorem zip_all_folded (h : r.length = s.length) :
    ((r.zip s).all fun (a, b) => (isSlash a && isSlash b) || lower16 a = lower16 b) = true ↔
      folded r = folded s := by
  induction r generalizing s with
  | nil =>
    obtain rfl := List.length_eq_zero_iff.mp h.symm
    simp
  | cons a r ih =>
    cases s with
    | nil => cases h
    | cons b s =>
      have := ih (s := s) (by simpa using h)
      simp only [List.zip_cons_cons, List.all_cons, Bool.and_eq_true, this, folded, List.map_cons,
        List.cons.injEq, caseless_eq_iff, Bool.or_eq_true, decide_eq_true_eq]

theorem uncRootEquals_iff : uncRootEquals r (s ++ rest) s.length = true ↔ folded r = folded s := by
  rw [uncRootEquals, List.take_left, Bool.and_eq_true, decide_eq_true_eq]
  constructor
  · rintro ⟨hlen, h⟩
    exact (zip_all_folded hlen).mp h
  · intro h
    exact ⟨length_of_folded h, (zip_all_folded (length_of_folded h)).mpr h⟩

theorem uncRootKnown_iff {roots : Roots} :
    uncRootKnown roots (s ++ rest) s.length = true ↔ ∃ r ∈ roots, folded r = folded s := by
  simp only [uncRootKnown, List.any_eq_true, uncRootEquals_iff]

end Roots

/-! ## The registry -/

/-- The root a path shows, behind two separators. -/
def shownRoot (path : Str) : Option Str :=
  if slashAt path 0 && slashAt path 1 then
    let p := path.drop 2
    if uncRootLen p = 0 then none else some (p.take (uncRootLen p))
  else none

theorem shownRoot_some {path r : Str} (h : shownRoot path = some r) :
    IsRoot r ∧ ∃ c d rest, isSlash c = true ∧ isSlash d = true ∧ Below rest ∧
      path = c :: d :: (r ++ rest) := by
  rw [shownRoot] at h
  split at h
  · rename_i h01
    simp only [Bool.and_eq_true] at h01
    dsimp only at h
    split at h
    · cases h
    · rename_i hn
      obtain ⟨r', rest, hp, hlen, hroot, hrest⟩ := uncRootLen_root hn
      rw [hlen, hp, List.take_left] at h
      obtain rfl := Option.some.inj h
      refine ⟨hroot, ?_⟩
      match path, h01, hp with
      | [], h01, _ => exact absurd h01.1 (by decide)
      | [c], h01, _ => exact absurd h01.2 (by simp [slashAt, isSlash, slash, bslash])
      | c :: d :: q, h01, hp =>
        obtain rfl : q = r' ++ rest := hp
        exact ⟨c, d, rest, h01.1, h01.2, hrest, rfl⟩
  · cases h

/-- The roots seen, no two of them the same up to case and separators. -/
structure Registry where
  table : Keyed.Table folded
  room : table.items.length ≤ uncRootMax
  roots : ∀ r ∈ table.items, IsRoot r

namespace Registry

def empty : Registry := ⟨.empty, Nat.zero_le _, fun _ h => absurd h (List.not_mem_nil)⟩

def note (g : Registry) (path : Str) : Registry :=
  match hshown : shownRoot path with
  | none => g
  | some r =>
      if h : g.table.find (folded r) = none ∧ g.table.items.length < uncRootMax then
        { table := g.table.push r h.1
          room := by
            rw [Keyed.Table.length_push]
            exact h.2
          roots := by
            intro s hs
            rcases List.mem_append.mp hs with hs | hs
            · exact g.roots s hs
            · rw [List.mem_singleton.mp hs]
              exact (shownRoot_some hshown).1 }
      else g

theorem known_iff (g : Registry) {s rest : Str} :
    uncRootKnown g.table.items (s ++ rest) s.length = true ↔ g.table.find (folded s) ≠ none := by
  rw [uncRootKnown_iff, ne_eq, Keyed.Table.find_eq_none_iff]
  simp

/-- **`__ape_shim_unc_note`** is what the registry does with a path. -/
theorem note_items (g : Registry) (path : Str) :
    (g.note path).table.items = uncNote g.table.items path := by
  rw [note, uncNote]
  split
  · rename_i hshown
    rw [shownRoot] at hshown
    split at hshown
    · dsimp only at hshown
      split at hshown
      · rename_i h01 hn
        simp [h01, hn]
      · cases hshown
    · rename_i h01
      rw [if_neg h01]
  · rename_i r hshown
    obtain ⟨hroot, c, d, rest, hc, hd, hrest, rfl⟩ := shownRoot_some hshown
    have h01 : (slashAt (c :: d :: (r ++ rest)) 0 && slashAt (c :: d :: (r ++ rest)) 1) = true := by
      simp [slashAt, hc, hd]
    have hlen : uncRootLen (r ++ rest) = r.length := hroot.uncRootLen hrest
    have hpos : r.length ≠ 0 := mt List.length_eq_zero_iff.mp hroot.ne_nil
    simp only [h01, if_true, List.drop_succ_cons, List.drop_zero, hlen, hpos, false_or,
      List.take_left, g.known_iff]
    by_cases hfind : g.table.find (folded r) = none
    · by_cases hroom : g.table.items.length < uncRootMax
      · rw [dif_pos ⟨hfind, hroom⟩, if_neg (not_not.mpr hfind), if_pos hroom]
        rfl
      · rw [dif_neg fun h => hroom h.2, if_neg (not_not.mpr hfind), if_neg hroom]
    · rw [dif_neg fun h => hfind h.1, if_pos hfind]

/-- A root is there because it was, or because the path shows it. -/
theorem mem_note {g : Registry} {path r : Str} (h : r ∈ (g.note path).table.items) :
    r ∈ g.table.items ∨ shownRoot path = some r := by
  rw [note] at h
  split at h
  · exact Or.inl h
  · rename_i s hshown
    split at h
    · rcases List.mem_append.mp h with h | h
      · exact Or.inl h
      · rw [List.mem_singleton.mp h]
        exact Or.inr hshown
    · exact Or.inl h

/-- What is remembered of the paths noted. -/
def seen (notes : List Str) : Registry := notes.foldl note empty

theorem seen_append (notes : List Str) (path : Str) :
    seen (notes ++ [path]) = (seen notes).note path := by
  rw [seen, seen, List.foldl_append, List.foldl_cons, List.foldl_nil]

theorem seen_items (notes : List Str) : (seen notes).table.items = notes.foldl uncNote [] := by
  induction notes using List.reverseRecOn with
  | nil => rfl
  | append_singleton notes path ih =>
    rw [seen_append, note_items, ih, List.foldl_append, List.foldl_cons, List.foldl_nil]

theorem mem_seen {notes : List Str} {r : Str} (h : r ∈ (seen notes).table.items) :
    ∃ path ∈ notes, shownRoot path = some r := by
  induction notes using List.reverseRecOn with
  | nil => cases h
  | append_singleton notes path ih =>
    rw [seen_append] at h
    rcases mem_note h with h | h
    · obtain ⟨path', hmem, hshown⟩ := ih h
      exact ⟨path', List.mem_append_left _ hmem, hshown⟩
    · exact ⟨path, by simp, h⟩

end Registry

/-! ## Paths that lost a separator -/

/-- "server" of a root. -/
def serverOf (r : Str) : Str := r.takeWhile fun c => !isSlash c

/-- `/server/share` of a root seen, and what is below. -/
def PairSeen (roots : Roots) (path : Str) : Prop :=
  ∃ r ∈ roots, ∃ c s rest, isSlash c = true ∧ Below rest ∧ folded s = folded r ∧
    path = c :: (s ++ rest)

/-- `/server` of a root seen, and at most a separator. -/
def ServerSeen (roots : Roots) (path : Str) : Prop :=
  ∃ r ∈ roots, ∃ c s rest, isSlash c = true ∧ Below rest ∧ rest.length ≤ 1 ∧
    folded s = folded (serverOf r) ∧ path = c :: (s ++ rest)

/-- The first component is a single letter. -/
def lettered (path : Str) : Bool :=
  slashAt path 0 && alphaAt path 1 && (slashAt path 2 || path.length = 2)

section Collapsed

variable {roots : Roots} {path s r rest : Str}

theorem serverOf_root {sep : UInt16} {server name : Str} (hsep : isSlash sep = true)
    (hs : IsServer server) : serverOf (shareRoot sep server name) = server :=
  takeWhile_noSlash hs.proper.noSlash (below_cons hsep _)

theorem lower_zip_iff (hr : ∀ x ∈ r, isSlash x = false) (hlen : r.length = s.length) :
    ((r.zip s).all fun (a, b) => lower16 a = lower16 b) = true ↔ folded r = folded s := by
  rw [← zip_all_folded hlen, List.all_eq_true, List.all_eq_true]
  refine forall₂_congr fun x hx => ?_
  have := hr x.1 (List.of_mem_zip hx).1
  simp [this]

theorem zip_longer (h : r.length = s.length) (t : Str) : (r ++ t).zip s = r.zip s := by
  conv_lhs => rw [← List.append_nil s, List.zip_append h, List.zip_nil_right, List.append_nil]

/-- The separator of a root stands behind its server. -/
theorem uncServerKnown_iff (hroots : ∀ r ∈ roots, IsRoot r) :
    uncServerKnown roots s = true ↔ ∃ r ∈ roots, folded s = folded (serverOf r) := by
  rw [uncServerKnown, List.any_eq_true]
  refine exists_congr fun r => and_congr_right fun hr => ?_
  obtain ⟨sep, server, name, hsep, hserver, hname, rfl, -⟩ := hroots r hr
  rw [serverOf_root hsep hserver, Bool.and_eq_true, Bool.and_eq_true, decide_eq_true_eq, shareRoot]
  constructor
  · rintro ⟨⟨hlen, hall⟩, hslash⟩
    -- only one place of the root holds a separator
    have hplace : server.length = s.length := by
      rw [List.getD_eq_getElem?_getD] at hslash
      rcases Nat.lt_trichotomy s.length server.length with h | h | h
      · rw [List.getElem?_append_left h, List.getElem?_eq_getElem h, Option.getD_some,
          hserver.proper.noSlash _ (List.getElem_mem h)] at hslash
        cases hslash
      · exact h.symm
      · obtain ⟨k, hk⟩ := Nat.exists_eq_add_of_lt h
        rw [hk, List.getElem?_append_right (by omega)] at hslash
        have hsub : server.length + k + 1 - server.length = k + 1 := by omega
        rw [hsub, List.getElem?_cons_succ] at hslash
        cases hget : name[k]? with
        | none =>
          rw [hget] at hslash
          exact absurd hslash (by decide)
        | some c =>
          rw [hget, Option.getD_some, hname.noSlash c (List.mem_of_getElem? hget)] at hslash
          cases hslash
    rw [zip_longer hplace] at hall
    exact ((lower_zip_iff hserver.proper.noSlash hplace).mp hall).symm
  · intro h
    have hlen := length_of_folded h
    rw [zip_longer hlen.symm]
    refine ⟨⟨?_, (lower_zip_iff hserver.proper.noSlash hlen.symm).mpr h.symm⟩, ?_⟩
    · rw [List.length_append, List.length_cons]
      omega
    · rw [hlen]
      simpa using hsep

theorem slashAt_one_of_seen (hroots : ∀ r ∈ roots, IsRoot r)
    (h : PairSeen roots path ∨ ServerSeen roots path) :
    slashAt path 0 = true ∧ slashAt path 1 = false := by
  rcases h with ⟨r, hr, c, s, rest, hc, hrest, hs, rfl⟩ | ⟨r, hr, c, s, rest, hc, hrest, -, hs, rfl⟩
  · exact ⟨hc, ((hroots r hr).of_folded hs).slashAt_zero rest⟩
  · obtain ⟨sep, server, name, hsep, hserver, -, rfl, -⟩ := hroots r hr
    rw [serverOf_root hsep hserver] at hs
    exact ⟨hc, (isServer_of_folded hs hserver).proper.slashAt_zero rest⟩

/-- Nothing below a server is measured as a share. -/
theorem uncRootLen_server (hs : ∀ x ∈ s, isSlash x = false) (hrest : Below rest)
    (hshort : rest.length ≤ 1) : uncRootLen (s ++ rest) = 0 := by
  have hdrop : (s ++ rest).drop (s.length + 1) = [] := by
    apply List.drop_eq_nil_of_le
    rw [List.length_append]
    omega
  rw [uncRootLen, takeWhile_noSlash hs hrest]
  simp [hdrop]

/-- **`IsCollapsedUnc`** tells exactly the paths of the roots seen and of their servers. -/
theorem isCollapsedUnc_iff (hroots : ∀ r ∈ roots, IsRoot r) :
    isCollapsedUnc roots path = true ↔
      lettered path = false ∧ (PairSeen roots path ∨ ServerSeen roots path) := by
  constructor
  · intro h
    rw [isCollapsedUnc] at h
    split at h
    · cases h
    rename_i h01
    simp only [not_or, Bool.not_eq_false, Bool.not_eq_true] at h01
    split at h
    · cases h
    rename_i hletter
    have hl : lettered path = false := by
      simpa [lettered, h01.1] using hletter
    split at h
    · cases h
    refine ⟨hl, ?_⟩
    cases path with
    | nil => exact absurd h01.1 (by decide)
    | cons c p =>
      simp only [List.drop_succ_cons, List.drop_zero] at h
      split at h
      · rename_i hn
        obtain ⟨s, rest, rfl, hlen, -, hrest⟩ := uncRootLen_root hn
        rw [hlen] at h
        obtain ⟨r, hr, hfold⟩ := uncRootKnown_iff.mp h
        exact Or.inl ⟨r, hr, c, s, rest, h01.1, hrest, hfold.symm, rfl⟩
      · obtain ⟨s, rest, rfl, htake, -, hrest⟩ := split_component p
        rw [htake, List.drop_left] at h
        split at h
        · rename_i hshort
          obtain ⟨r, hr, hfold⟩ := (uncServerKnown_iff hroots).mp h
          exact Or.inr ⟨r, hr, c, s, rest, h01.1, hrest, hshort, hfold, rfl⟩
        · cases h
  · rintro ⟨hl, h⟩
    obtain ⟨h0, h1⟩ := slashAt_one_of_seen hroots h
    have h01 : ¬ (slashAt path 0 = false ∨ slashAt path 1 = true) := by simp [h0, h1]
    have hletter : ¬ (alphaAt path 1 = true ∧ (slashAt path 2 = true ∨ path.length = 2)) := by
      simpa [lettered, h0] using hl
    have hne : roots ≠ [] := by
      rintro rfl
      rcases h with ⟨r, hr, -⟩ | ⟨r, hr, -⟩ <;> cases hr
    rw [isCollapsedUnc, if_neg h01, if_neg hletter, if_neg hne]
    rcases h with ⟨r, hr, c, s, rest, -, hrest, hs, rfl⟩ |
      ⟨r, hr, c, s, rest, -, hrest, hshort, hs, rfl⟩
    · have hroot := (hroots r hr).of_folded hs
      have hlen : uncRootLen (s ++ rest) = s.length := hroot.uncRootLen hrest
      have hpos : s.length ≠ 0 := mt List.length_eq_zero_iff.mp hroot.ne_nil
      simp only [List.drop_succ_cons, List.drop_zero, hlen, ne_eq, hpos, not_false_eq_true, if_true]
      exact uncRootKnown_iff.mpr ⟨r, hr, hs.symm⟩
    · have hserver : ∀ x ∈ s, isSlash x = false := by
        obtain ⟨sep, server, name, hsep, hserver, -, rfl, -⟩ := hroots r hr
        rw [serverOf_root hsep hserver] at hs
        exact (isServer_of_folded hs hserver).proper.noSlash
      have hlen : uncRootLen (s ++ rest) = 0 := uncRootLen_server hserver hrest hshort
      simp only [List.drop_succ_cons, List.drop_zero, hlen, ne_eq, not_true_eq_false, if_false,
        takeWhile_noSlash hserver hrest, List.drop_left, hshort, if_true]
      exact (uncServerKnown_iff hroots).mpr ⟨r, hr, hs⟩

end Collapsed

/-! ## What is converted -/

section Scan

variable {prev : Option UInt16} {best w : Str}

/-- Where a segment starts in a path, the path before it does not matter. -/
theorem rerootLoop_marked (h : noMarks prev w = false) (best' : Str) :
    rerootLoop prev best w = rerootLoop prev best' w := by
  induction w generalizing prev best best' with
  | nil => cases h
  | cons c w ih =>
    rw [rerootLoop, rerootLoop]
    cases hc : markAt prev (c :: w) with
    | true => rfl
    | false =>
      simp only [noMarks, hc, Bool.not_false, Bool.true_and] at h
      simp only [Bool.false_eq_true, if_false]
      exact ih h best'

theorem rerootLoop_cases (prev : Option UInt16) (best w : Str) :
    rerootLoop prev best w = best ∨ driveMark (rerootLoop prev best w) = true ∨
      pairMark (rerootLoop prev best w) = true := by
  induction w generalizing prev best with
  | nil => exact Or.inl rfl
  | cons c w ih =>
    rw [rerootLoop]
    cases hc : markAt prev (c :: w) with
    | false =>
      simp only [Bool.false_eq_true, if_false]
      exact ih (some c) best
    | true =>
      simp only [if_true]
      rcases ih (some c) (c :: w) with h | h
      · rw [h]
        simp only [markAt, Bool.and_eq_true, Bool.or_eq_true] at hc
        exact Or.inr (hc.2.imp id And.right)
      · exact Or.inr h

/-- A second slash before a path with one is no segment's. -/
theorem reroot_cons_slash (h0 : slashAt w 0 = true) (h1 : slashAt w 1 = false) :
    reroot (slash :: w) = if noMarks none w = true then slash :: w else reroot w := by
  cases w with
  | nil => exact absurd h0 (by decide)
  | cons c w =>
    have hc : isSlash c = true := h0
    have halpha : isAlpha c.toNat = false := by
      cases ha : isAlpha c.toNat with
      | false => rfl
      | true => exact absurd hc (by simp [Env.isSlash_of_alpha ha])
    have hstart : ∀ prev, markAt prev (c :: w) = false := by
      intro prev
      have hpair : pairMark (c :: w) = false := by
        cases w with
        | nil => simp [pairMark, bslash]
        | cons d w =>
          have hd : d ≠ bslash := by
            rintro rfl
            exact absurd h1 (by simp [slashAt, isSlash])
          simp [pairMark, hd]
      simp [markAt, driveMark, alphaAt, halpha, hpair]
    have hmarks : noMarks none (c :: w) = noMarks (some c) w := by
      rw [noMarks, hstart, Bool.not_false, Bool.true_and]
    rw [hmarks, reroot, rerootLoop, markAt_slash, rerootLoop, hstart, reroot, rerootLoop, hstart]
    simp only [Bool.false_eq_true, if_false]
    split
    · rename_i h
      exact rerootLoop_noMarks _ _ _ h
    · rename_i h
      exact rerootLoop_marked (by simpa using h) _

end Scan

section Convert

variable {env : Env} {roots : Roots} {path q : Str}

theorem slashAt_of_collapsed (h : isCollapsedUnc roots path = true) :
    slashAt path 0 = true ∧ slashAt path 1 = false := by
  rw [isCollapsedUnc] at h
  split at h
  · cases h
  · rename_i h01
    simpa using h01

/-- With its separator restored, such a path shows nothing new. -/
theorem uncNote_collapsed (h : isCollapsedUnc roots path = true) :
    uncNote roots (slash :: path) = roots := by
  have hdouble : (slashAt (slash :: path) 0 && slashAt (slash :: path) 1) = true := by
    simpa [slashAt, isSlash_slash] using (slashAt_of_collapsed h).1
  rw [uncNote, if_pos hdouble]
  simp only [List.drop_succ_cons]
  rw [if_pos]
  by_cases hn : uncRootLen (path.drop 1) = 0
  · exact Or.inl hn
  · rw [isCollapsedUnc] at h
    simp only [hn, ne_eq, not_false_eq_true, if_true] at h
    split at h
    · cases h
    · split at h
      · cases h
      · split at h
        · cases h
        · exact Or.inr h

/-- **A lost separator is restored**: the path goes on as with both. -/
theorem stages_collapsed (h : isCollapsedUnc roots path = true) (hproc : env.procfs path = none)
    (hfit : width8 path + 2 ≤ env.pathMax) :
    env.stages roots path = env.stages roots (slash :: path) := by
  obtain ⟨h0, h1⟩ := slashAt_of_collapsed h
  have hproc' : env.procfs (slash :: path) = none := env.procfs_none _ (Or.inr (Or.inl h0))
  rw [Env.stages, Env.stages, hproc, hproc', Option.getD_none, Option.getD_none,
    reroot_cons_slash h0 h1]
  by_cases hm : noMarks none path = true
  · have hrel : isRelative path = false := by simp [isRelative, h0]
    have hrel' : isRelative (slash :: path) = false := by simp [isRelative, slashAt, isSlash_slash]
    have hdouble : (slashAt (slash :: path) 0 && slashAt (slash :: path) 1) = true := by
      simpa [slashAt, isSlash_slash] using h0
    have hone : ¬ (slashAt path 0 && slashAt path 1) = true := by simp [h1]
    have hfit' : ¬ width8 path + 2 > env.pathMax := by omega
    simp only [reroot_noMarks hm, if_pos hm, hrel, hrel', Bool.false_eq_true, if_false, if_neg hone,
      if_pos h, if_neg hfit', if_pos hdouble, uncNote_collapsed h]
  · rw [if_neg hm]

/-- The path a climb goes on with starts with two separators. -/
theorem finish_congr {again again' : Str → Except NtErr Str}
    (h : ∀ full, slashAt full 0 = true → slashAt full 1 = true → again full = again' full) :
    env.finish again q = env.finish again' q := by
  cases hh : env.head q with
  | error e =>
    rw [Env.finish, Env.finish, hh]
    rfl
  | ok l =>
    have hcases := head_cases hh
    obtain ⟨pre, rest, room, share⟩ := l
    cases share with
    | none =>
      rw [Env.finish, Env.finish, hh]
      rfl
    | some root =>
      have hpre : pre ≠ [] := by
        rcases hcases with ⟨hnone, -⟩ | ⟨root', -, hpre⟩
        · cases hnone
        · obtain rfl : pre = _ := hpre
          simp [longMark]
      rw [env.finish_share hh hpre, env.finish_share hh hpre]
      split
      · rfl
      · split
        · exact h _ isSlash_slash isSlash_slash
        · rfl

theorem bind_finish_congr (x : Except NtErr Str) {again again' : Str → Except NtErr Str}
    (h : ∀ full, slashAt full 0 = true → slashAt full 1 = true → again full = again' full) :
    x.bind (env.finish again) = x.bind (env.finish again') := by
  cases x with
  | error e => rfl
  | ok q => exact finish_congr h

/-- A path that is not relative and not taken for a share goes on as it is, or as the last
absolute segment in it. -/
theorem reroot_unseen (hrel : isRelative q = false) (hcol : isCollapsedUnc roots q = false) :
    isRelative (reroot q) = false ∧ isCollapsedUnc roots (reroot q) = false := by
  rcases rerootLoop_cases none q q with h | h | h
  · rw [reroot, h]
    exact ⟨hrel, hcol⟩
  · simp only [driveMark, Bool.and_eq_true, decide_eq_true_eq] at h
    have hslash : slashAt (reroot q) 0 = false := Env.isSlash_of_alpha h.1.1
    constructor
    · rw [isRelative, reroot, h.1.1, h.1.2]
      simp
    · rw [isCollapsedUnc, if_pos (Or.inl hslash)]
  · simp only [pairMark, Bool.and_eq_true, decide_eq_true_eq] at h
    have h0 : slashAt (reroot q) 0 = true := by
      rw [slashAt, reroot, h.1.1]
      exact isSlash_bslash
    have h1 : slashAt (reroot q) 1 = true := by
      rw [slashAt, reroot, h.1.2]
      exact isSlash_bslash
    exact ⟨by simp [isRelative, h0], by rw [isCollapsedUnc, if_pos (Or.inr h1)]⟩

theorem stages_unseen (roots' : Roots) (hq : (env.procfs path).getD path = q)
    (hrel : isRelative q = false) (hcol : isCollapsedUnc roots q = false)
    (hcol' : isCollapsedUnc roots' q = false) :
    (env.stages roots path).2 = (env.stages roots' path).2 := by
  obtain ⟨-, hcol'⟩ := reroot_unseen hrel hcol'
  obtain ⟨hrel, hcol⟩ := reroot_unseen hrel hcol
  rw [Env.stages, Env.stages, hq]
  simp only [hrel, hcol, hcol', Bool.false_eq_true, if_false]
  split
  · rfl
  · rfl

theorem not_collapsed_double (roots : Roots) (h1 : slashAt path 1 = true) :
    isCollapsedUnc roots path = false := by
  rw [isCollapsedUnc, if_pos (Or.inr h1)]

/-- Behind two separators nothing is looked up. -/
theorem mkntpath2From_double_roots (fuel : Nat) (roots roots' : Roots) (path : Str)
    (h0 : slashAt path 0 = true) (h1 : slashAt path 1 = true) :
    (env.mkntpath2From fuel roots path).2 = (env.mkntpath2From fuel roots' path).2 := by
  induction fuel generalizing roots roots' path with
  | zero => rfl
  | succ fuel ih =>
    have hproc : (env.procfs path).getD path = path := by
      rw [env.procfs_none path (Or.inr (Or.inl h1)), Option.getD_none]
    have hstages : (env.stages roots path).2 = (env.stages roots' path).2 :=
      stages_unseen roots' hproc (by simp [isRelative, h0]) (not_collapsed_double _ h1)
        (not_collapsed_double _ h1)
    rw [mkntpath2From_stages, mkntpath2From_stages, hstages]
    exact bind_finish_congr _ fun full hf0 hf1 => ih _ _ full hf0 hf1

theorem mkntpath2_of_stages {roots' : Roots} {path' : Str}
    (h : (env.stages roots path).2 = (env.stages roots' path').2) :
    (env.mkntpath2 roots path).2 = (env.mkntpath2 roots' path').2 := by
  rw [Env.mkntpath2, Env.mkntpath2, mkntpath2From_stages, mkntpath2From_stages, h]
  exact bind_finish_congr _ fun full hf0 hf1 => mkntpath2From_double_roots _ _ _ full hf0 hf1

end Convert

theorem not_collapsed_empty (path : Str) : isCollapsedUnc [] path = false := by
  rw [isCollapsedUnc]
  split
  · rfl
  · split <;> rfl

/-- **Shares whose second slash is lost**: of any sequence of paths noted at most 16 roots
are remembered, no two the same up to case and separators, and each is what a path shows
behind its two separators; `/server/share` of a root and what is below is converted as
`//server/share` is, if the server is not a single letter, `/proc` and `/sys` do not take the
path, and it has room for the slash; and a path that is neither below a root seen nor its
server is converted as if none were. -/
theorem share_registry (notes : List Str) (env : Env) :
    ((notes.foldl uncNote []).length ≤ uncRootMax ∧
      (notes.foldl uncNote []).Pairwise (fun r s => folded r ≠ folded s) ∧
      ∀ r ∈ notes.foldl uncNote [], IsRoot r ∧ ∃ path ∈ notes, ∃ c d rest, isSlash c = true ∧
        isSlash d = true ∧ Below rest ∧ path = c :: d :: (r ++ rest)) ∧
    (∀ path, PairSeen (notes.foldl uncNote []) path → lettered path = false →
      env.procfs path = none → width8 path + 2 ≤ env.pathMax →
      (env.mkntpath2 (notes.foldl uncNote []) path).2 =
        (env.mkntpath2 (notes.foldl uncNote []) (slash :: path)).2) ∧
    ∀ path, isRelative ((env.procfs path).getD path) = false →
      (lettered ((env.procfs path).getD path) = true ∨
        ¬ PairSeen (notes.foldl uncNote []) ((env.procfs path).getD path) ∧
        ¬ ServerSeen (notes.foldl uncNote []) ((env.procfs path).getD path)) →
      (env.mkntpath2 (notes.foldl uncNote []) path).2 = (env.mkntpath2 [] path).2 := by
  have hitems := Registry.seen_items notes
  have hroots : ∀ r ∈ notes.foldl uncNote [], IsRoot r := by
    rw [← hitems]
    exact (Registry.seen notes).roots
  refine ⟨⟨?_, ?_, fun r hr => ⟨hroots r hr, ?_⟩⟩, ?_, ?_⟩
  · rw [← hitems]
    exact (Registry.seen notes).room
  · rw [← hitems]
    exact List.pairwise_map.mp (Registry.seen notes).table.unique
  · rw [← hitems] at hr
    obtain ⟨path, hmem, hshown⟩ := Registry.mem_seen hr
    exact ⟨path, hmem, (shownRoot_some hshown).2⟩
  · intro path hseen hletter hproc hfit
    apply mkntpath2_of_stages
    rw [stages_collapsed ((isCollapsedUnc_iff hroots).mpr ⟨hletter, Or.inl hseen⟩) hproc hfit]
  · intro path hrel hunseen
    have hcol : isCollapsedUnc (notes.foldl uncNote []) ((env.procfs path).getD path) = false := by
      rw [← Bool.not_eq_true, isCollapsedUnc_iff hroots]
      rintro ⟨hletter, hseen⟩
      rcases hunseen with h | h
      · rw [h] at hletter
        cases hletter
      · exact hseen.elim h.1 h.2
    exact mkntpath2_of_stages (stages_unseen [] rfl hrel hcol (not_collapsed_empty _))

/-- One path on the share `d` of `srv` is noted. -/
def oneNote : List Str := [ascii ['/', '/', 's', 'r', 'v', '/', 'd', '/', 'x']]

/-- `/SRV/d/y` is on the share, and `/usr/x` is not. -/
theorem share_registry_seen :
    (Env.bare.mkntpath2 (oneNote.foldl uncNote [])
        (ascii ['/', 'S', 'R', 'V', '/', 'd', '/', 'y'])).2 =
      (Env.bare.mkntpath2 (oneNote.foldl uncNote [])
        (slash :: ascii ['/', 'S', 'R', 'V', '/', 'd', '/', 'y'])).2 ∧
    (Env.bare.mkntpath2 (oneNote.foldl uncNote []) (ascii ['/', 'u', 's', 'r', '/', 'x'])).2 =
      (Env.bare.mkntpath2 [] (ascii ['/', 'u', 's', 'r', '/', 'x'])).2 := by
  obtain ⟨⟨-, -, hroots⟩, hseen, hunseen⟩ := share_registry oneNote .bare
  constructor
  · refine hseen _ ⟨ascii ['s', 'r', 'v', '/', 'd'], by decide, slash,
      ascii ['S', 'R', 'V', '/', 'd'], ascii ['/', 'y'], by decide, ?_, by decide, rfl⟩ (by decide)
      rfl (by decide)
    exact below_cons isSlash_slash _
  · have hnot : ¬ (PairSeen (oneNote.foldl uncNote []) (ascii ['/', 'u', 's', 'r', '/', 'x']) ∨
        ServerSeen (oneNote.foldl uncNote []) (ascii ['/', 'u', 's', 'r', '/', 'x'])) := by
      intro h
      have := (isCollapsedUnc_iff fun r hr => (hroots r hr).1).mpr ⟨by decide, h⟩
      exact absurd this (by decide)
    exact hunseen _ (by decide) (Or.inr (not_or.mp hnot))

/-- `pc_root` on a share, its second slash lost. -/
def Tree.onShare : Tree := { Tree.temp with root := some (ascii ['/', 's', 'r', 'v', '/', 'd']) }

/-- A server of one letter is a drive; a server `proc` is emulated; a path with its slash is
too long in bytes where its 16-bit text fits; and an emulated path goes to `pc_root`, which
may have lost its slash too. -/
theorem shares_not_restored :
    (Env.bare.mkntpath2 ([ascii ['/', '/', 'c', '/', 'd']].foldl uncNote [])
      (ascii ['/', 'c', '/', 'd', '/', 'y'])).2 = .ok (ascii ['c', ':', '\\', 'd', '\\', 'y']) ∧
    (Env.bare.mkntpath2 ([ascii ['/', '/', 'c', '/', 'd']].foldl uncNote [])
      (ascii ['/', '/', 'c', '/', 'd', '/', 'y'])).2 =
        .ok (ascii ['\\', '\\', 'c', '\\', 'd', '\\', 'y']) ∧
    ((Env.bare.withTree .temp).mkntpath2
      ([ascii ['/', '/', 'p', 'r', 'o', 'c', '/', 'd']].foldl uncNote [])
      (procName ++ ascii ['/', 'd', '/', 'y'])).2 =
        .ok (ascii ['C', ':', '\\', 't', '\\', 'p', '\\', 'd', '\\', 'y']) ∧
    ((Env.bare.withTree .temp).mkntpath2
      ([ascii ['/', '/', 'p', 'r', 'o', 'c', '/', 'd']].foldl uncNote [])
      (slash :: procName ++ ascii ['/', 'd', '/', 'y'])).2 =
        .ok (ascii ['\\', '\\', 'p', 'r', 'o', 'c', '\\', 'd', '\\', 'y']) ∧
    (Env.bare.mkntpath2 (oneNote.foldl uncNote [])
      (ascii ['/', 's', 'r', 'v', '/', 'd', '/'] ++ List.replicate 340 0x4E00)).2 =
        .error .enametoolong ∧
    (Env.bare.mkntpath2 (oneNote.foldl uncNote [])
      (ascii ['/', '/', 's', 'r', 'v', '/', 'd', '/'] ++ List.replicate 340 0x4E00)).2 =
        .ok (longMark ++ uncMark ++ ascii ['s', 'r', 'v', '\\', 'd', '\\'] ++
          List.replicate 340 0x4E00) ∧
    ((Env.bare.withTree .onShare).mkntpath2 (oneNote.foldl uncNote [])
      (procName ++ ascii ['/', 'y'])).2 =
        .ok (ascii ['\\', '\\', 's', 'r', 'v', '\\', 'd', '\\', 'y']) ∧
    ((Env.bare.withTree .onShare).mkntpath2 [] (procName ++ ascii ['/', 'y'])).2 =
        .ok (ascii ['C', ':', '\\', 's', 'r', 'v', '\\', 'd', '\\', 'y']) := by
  refine ⟨by decide +kernel, by decide +kernel, by decide +kernel, by decide +kernel,
    by decide +kernel, by decide +kernel, by decide +kernel, by decide +kernel⟩

end ApeShim.Nt
