import ApeShim.Nt.Spellers

/-!
`realpath` of `shim/realpath.c` on NT, and what it makes of a path on a share next
to what `__mkntpath2` makes of it. `readlink` and the current directory are what
the system answers.
-/

namespace ApeShim.Nt
open Walk

inductive RpErr
  | enametoolong | enoent | eloop | einval
  | other (errno : Nat)
  deriving DecidableEq, Repr

/-- What `realpath` asks: the text of a link or why there is none, and the current
directory. -/
structure Files where
  readlink : Str → Except RpErr Str
  getcwd : Except RpErr Str

/-- `output[0..q)`, `stack` from `p` on, and the counters of the walk. -/
structure Rp where
  output : Str
  stack : Str
  checkDir : Bool
  nup : Nat
  cnt : Nat
  deriving DecidableEq

/-- `SYMLOOP_MAX` -/
def symloopMax : Nat := 40

inductive Turn
  /-- `continue`, which passes the separators that follow -/
  | next (s : Rp)
  /-- `goto restart` -/
  | restart (s : Rp)
  | done
  | fail (e : RpErr)

/-- Back to before the last component, never behind "/" or "//". -/
def trim (o : Str) : Str :=
  let o := (o.reverse.dropWhile (· ≠ slash)).reverse
  if o.length > 1 ∧ (o.length > 2 ∨ o.head? ≠ some slash) then o.dropLast else o

/-- The server or the share component of a UNC path. -/
def uncPart (o : Str) : Bool := o.take 2 = [slash, slash] && (o.drop 2).count slash < 2

/-- `skip_readlink`: `part` is no link. -/
def Rp.skip (s : Rp) (part full rest : Str) : Turn :=
  if part = dotdot then .next { s with output := trim s.output, stack := rest, checkDir := false }
  else
    .next { s with
      output := if part = [] then s.output else full
      stack := rest
      checkDir := rest ≠ [] }

/-- The output with the next component, behind a separator where it needs one. -/
def Rp.full (s : Rp) (part : Str) : Str :=
  s.output ++ ((if s.output ≠ [] ∧ s.output.getLast? ≠ some slash then [slash] else []) ++ part)

/-- A turn that reads the link `link` at the next component. -/
def Env.follow (env : Env) (s : Rp) (link rest : Str) : Turn :=
  if width8 link ≥ env.pathMax - width8 rest then .fail .enametoolong
  else if link = [] then .fail .enoent
  else if s.cnt + 1 = symloopMax then .fail .eloop
  else
    .restart { s with
      stack := link ++ (if link.getLast? = some slash then rest.dropWhile (· = slash) else rest)
      cnt := s.cnt + 1 }

/-- A turn for the component `part` of the stack, with `rest` behind it. -/
def Env.component (env : Env) (files : Files) (s : Rp) (part rest : Str) : Turn :=
  if part = [] ∧ s.checkDir = false then .done
  else if part = [dot] then .next { s with stack := rest }
  else if (s.output ≠ [] ∧ s.output.getLast? ≠ some slash) ∧ width8 s.stack ≥ env.pathMax then
    .fail .enametoolong
  else if width8 (s.full part) ≥ env.pathMax then .fail .enametoolong
  else if part = dotdot ∧ width8 s.output ≤ 3 * s.nup then
    .next { s with output := s.full part, stack := rest, nup := s.nup + 1 }
  else if (part = dotdot ∧ s.checkDir = false) ∨ uncPart (s.full part) = true then
    s.skip part (s.full part) rest
  else
    match files.readlink (s.full part) with
    | .error .einval => s.skip part (s.full part) rest
    | .error e => .fail e
    | .ok link => env.follow s link rest

/-- One turn of the main loop. -/
def Env.turn (env : Env) (files : Files) (s : Rp) : Turn :=
  if s.stack.head? = some slash then
    let rest := s.stack.tail
    .next { s with
      output := if rest.head? = some slash ∧ rest.tail.head? ≠ some slash then [slash, slash]
        else [slash]
      stack := rest
      checkDir := false
      nup := 0 }
  else env.component files s (s.stack.takeWhile (· ≠ slash)) (s.stack.dropWhile (· ≠ slash))

/-- The main loop. -/
def Env.walk (env : Env) (files : Files) : Nat → Rp → Option (Except RpErr Rp)
  | 0, _ => none
  | fuel + 1, s =>
      match env.turn files s with
      | .next s => env.walk files fuel { s with stack := s.stack.dropWhile (· = slash) }
      | .restart s => env.walk files fuel s
      | .done => some (.ok s)
      | .fail e => some (.error e)

/-- Enough turns for every walk, with `symloopMax` links on the way. -/
def Env.fuel (env : Env) : Nat := (symloopMax + 1) * (env.pathMax + 2)

/-- The start of a path on NT: separators forward, "C:" as "/C", a share with both
its separators. -/
def Env.openPath (env : Env) (roots : Roots) (filename : Str) : Except RpErr Str :=
  let o := forward filename
  let o := if alphaAt o 0 && o.getD 1 0 = colon && (o.length = 2 || o.getD 2 0 = slash) then
      slash :: o.getD 0 0 :: o.drop 2
    else o
  if width8 filename ≥ env.pathMax then .error .enametoolong
  else if isCollapsedUnc roots o then
    if width8 o + 1 ≥ env.pathMax then .error .enametoolong else .ok (slash :: o)
  else .ok o

/-- A relative path is joined onto the current directory before the walk. -/
def Env.joinCwd (env : Env) (files : Files) (o : Str) : Except RpErr Str :=
  if o.head? = some slash then .ok o
  else do
    let cwd ← files.getcwd
    let cwd := if cwd.getLast? = some slash then cwd.dropLast else cwd
    if width8 cwd + 1 + width8 o + 1 > env.pathMax then throw .enametoolong
    return cwd ++ slash :: o

/-- The current directory, `nup` times up. -/
def upCwd : Nat → Str → Str
  | 0, cwd => cwd
  | nup + 1, cwd =>
      let c := (cwd.reverse.dropWhile (· ≠ slash)).reverse
      upCwd nup (if c.length > 1 then c.dropLast else cwd.take 1)

/-- What is left of `output` behind its `..`s. -/
def behindUps : Nat → Str → Str
  | 0, o => o
  | nup + 1, o => behindUps nup (if o.length > 2 then o.drop 3 else o.drop 2)

/-- The end of a walk that never met a root. -/
def Env.close (env : Env) (files : Files) (s : Rp) : Except RpErr Str :=
  if s.output.head? = some slash then .ok s.output
  else do
    let cwd ← files.getcwd
    let cwd := upCwd s.nup cwd
    let o := behindUps s.nup s.output
    let cwd := if o ≠ [] ∧ cwd.getLast? ≠ some slash then cwd ++ [slash] else cwd
    if width8 cwd + width8 o + 1 ≥ env.pathMax then throw .enametoolong
    return cwd ++ o

/-- `/zip` -/
def zipMark : Str := [slash, 0x7A, 0x69, 0x70]

/-- `realpath`. -/
def Env.realpath (env : Env) (files : Files) (roots : Roots) (filename : Str) :
    Option (Except RpErr Str) :=
  match env.openPath roots filename >>= env.joinCwd files with
  | .error e => some (.error e)
  | .ok o =>
      if o = [] then some (.error .enoent)
      else if width8 o ≥ env.pathMax then some (.error .enametoolong)
      else if o.take 4 = zipMark ∧ (o.length = 4 ∨ o.getD 4 0 = slash) then some (.ok o)
      else (env.walk files env.fuel ⟨[], o, false, 0, 0⟩).map (· >>= env.close files)

/-! ## Every walk ends -/

/-- The next turn starts behind the separators. -/
def Rp.behind (s : Rp) : Rp := { s with stack := s.stack.dropWhile (· = slash) }

/-- What a turn without a link uses up. -/
def Rp.size (s : Rp) : Nat := s.stack.length + if s.checkDir then 1 else 0

theorem Rp.size_behind_le (s : Rp) : s.behind.size ≤ s.size :=
  Nat.add_le_add_right (List.dropWhile_sublist (l := s.stack) (· = slash)).length_le _

section Turns

variable {env : Env} {files : Files} {s t : Rp} {part rest full : Str}

theorem Rp.size_skip (hs : s.stack = part ++ rest) (hrest : rest = [] ∨ rest.head? = some slash)
    (hpart : part = [] → rest = [] ∧ s.checkDir = true) (h : s.skip part full rest = .next t) :
    t.cnt = s.cnt ∧ t.behind.size < s.size := by
  have hlen : s.stack.length = part.length + rest.length := by rw [hs, List.length_append]
  have hpos : part ≠ [] → 0 < part.length := List.length_pos_iff.mpr
  have hdrop : rest ≠ [] → (rest.dropWhile (· = slash)).length < rest.length := by
    intro hne
    have hhead := hrest.resolve_left hne
    cases rest with
    | nil => exact absurd rfl hne
    | cons c rest =>
      simp only [List.head?_cons, Option.some.injEq] at hhead
      have := (List.dropWhile_sublist (l := rest) (· = slash)).length_le
      simp only [hhead, decide_true, List.dropWhile_cons_of_pos, List.length_cons]
      omega
  unfold skip at h
  split at h
  · rename_i hup
    obtain rfl := Turn.next.inj h
    refine ⟨rfl, Nat.lt_of_le_of_lt (size_behind_le _) ?_⟩
    have : part.length = 2 := by rw [hup]; rfl
    simp only [size, hlen, Bool.false_eq_true, if_false]
    omega
  · obtain rfl := Turn.next.inj h
    refine ⟨rfl, ?_⟩
    by_cases hr : rest = []
    · by_cases hp : part = []
      · have := (hpart hp).2
        simp [size, behind, hr, this]
      · have := hpos hp
        simp only [size, behind, hr, List.dropWhile_nil, List.length_nil, ne_eq, not_true,
          decide_false, Bool.false_eq_true, if_false, hlen]
        omega
    · have := hdrop hr
      have := hpos fun hp => hr (hpart hp).1
      simp only [size, behind, hr, ne_eq, not_false_eq_true, decide_true, if_true, hlen]
      omega

/-- What a component can come to. -/
theorem component_cases (env : Env) (files : Files) (s : Rp) (part rest : Str) :
    (part = [] ∧ s.checkDir = false ∧ env.component files s part rest = .done) ∨
    (∃ e, env.component files s part rest = .fail e) ∨
    (part = [dot] ∧ env.component files s part rest = .next { s with stack := rest }) ∨
    (part = dotdot ∧ width8 s.output ≤ 3 * s.nup ∧ env.component files s part rest =
      .next { s with output := s.full part, stack := rest, nup := s.nup + 1 }) ∨
    (¬ (part = [] ∧ s.checkDir = false) ∧ part ≠ [dot] ∧
      env.component files s part rest = s.skip part (s.full part) rest) ∨
    (∃ link, files.readlink (s.full part) = .ok link ∧
      env.component files s part rest = env.follow s link rest) := by
  by_cases h₁ : part = [] ∧ s.checkDir = false
  · exact Or.inl ⟨h₁.1, h₁.2, if_pos h₁⟩
  by_cases h₂ : part = [dot]
  · exact Or.inr (Or.inr (Or.inl ⟨h₂, by rw [Env.component, if_neg h₁, if_pos h₂]⟩))
  refine Or.inr ?_
  have hstep := Env.component.eq_1 env files s part rest
  rw [if_neg h₁, if_neg h₂] at hstep
  split at hstep
  · exact Or.inl ⟨_, hstep⟩
  split at hstep
  · exact Or.inl ⟨_, hstep⟩
  split at hstep
  · rename_i h
    exact Or.inr (Or.inr (Or.inl ⟨h.1, h.2, hstep⟩))
  split at hstep
  · exact Or.inr (Or.inr (Or.inr (Or.inl ⟨h₁, h₂, hstep⟩)))
  split at hstep
  · exact Or.inr (Or.inr (Or.inr (Or.inl ⟨h₁, h₂, hstep⟩)))
  · exact Or.inl ⟨_, hstep⟩
  · rename_i link h
    exact Or.inr (Or.inr (Or.inr (Or.inr ⟨link, h, hstep⟩)))

/-- A link leaves a stack that fits. -/
theorem follow_uses {link : Str} (h : env.follow s link rest = .restart t) :
    t.cnt = s.cnt + 1 ∧ t.cnt ≠ symloopMax ∧ t.stack.length < env.pathMax := by
  unfold Env.follow at h
  split at h
  · cases h
  split at h
  · cases h
  split at h
  · cases h
  rename_i hfit _ hcnt
  obtain rfl := Turn.restart.inj h
  refine ⟨rfl, hcnt, ?_⟩
  have h₁ := length_le_width8 link
  have h₂ := length_le_width8 rest
  have h₃ := (List.dropWhile_sublist (l := rest) (· = slash)).length_le
  simp only [List.length_append]
  split <;> omega

/-- The stack without a separator in front is a component and what follows it. -/
theorem stack_split (h : s.stack.head? ≠ some slash) :
    s.stack = s.stack.takeWhile (· ≠ slash) ++ s.stack.dropWhile (· ≠ slash) ∧
      (s.stack.dropWhile (· ≠ slash) = [] ∨
        (s.stack.dropWhile (· ≠ slash)).head? = some slash) ∧
      (s.stack.takeWhile (· ≠ slash) = [] → s.stack.dropWhile (· ≠ slash) = []) := by
  refine ⟨List.takeWhile_append_dropWhile.symm, ?_, ?_⟩
  · cases hd : s.stack.dropWhile (· ≠ slash) with
    | nil => exact Or.inl rfl
    | cons c w =>
      have hc := List.head?_dropWhile_not (· ≠ slash) s.stack
      rw [hd] at hc
      simp at hc
      exact Or.inr (by rw [hc]; rfl)
  · intro hp
    cases hst : s.stack with
    | nil => rfl
    | cons c w =>
      rw [hst] at h hp
      have hc : c ≠ slash := by simpa using h
      simp [hc] at hp

/-- A turn that goes on uses some of the stack, or one of the links allowed. -/
theorem turn_uses :
    (env.turn files s = .next t → t.cnt = s.cnt ∧ t.behind.size < s.size) ∧
      (env.turn files s = .restart t →
        t.cnt = s.cnt + 1 ∧ t.cnt ≠ symloopMax ∧ t.stack.length < env.pathMax) := by
  unfold Env.turn
  split
  · rename_i hhead
    refine ⟨fun h => ?_, fun h => (by cases h)⟩
    obtain rfl := Turn.next.inj h
    refine ⟨rfl, Nat.lt_of_le_of_lt (Rp.size_behind_le _) ?_⟩
    cases hst : s.stack with
    | nil => simp [hst] at hhead
    | cons c w =>
      simp only [Rp.size, hst, List.tail_cons, List.length_cons, Bool.false_eq_true, if_false]
      omega
  · rename_i hhead
    obtain ⟨hs, hrest, hempty⟩ := stack_split hhead
    generalize s.stack.takeWhile (· ≠ slash) = part at hs hempty ⊢
    generalize s.stack.dropWhile (· ≠ slash) = rest at hs hrest hempty ⊢
    have hlen : s.stack.length = part.length + rest.length := by rw [hs, List.length_append]
    rcases component_cases env files s part rest with ⟨-, -, he⟩ | ⟨e, he⟩ | ⟨hp, he⟩ |
      ⟨hp, -, he⟩ | ⟨hp, -, he⟩ | ⟨link, -, he⟩
    · rw [he]
      exact ⟨fun h => (by cases h), fun h => (by cases h)⟩
    · rw [he]
      exact ⟨fun h => (by cases h), fun h => (by cases h)⟩
    · rw [he]
      refine ⟨fun h => ?_, fun h => (by cases h)⟩
      obtain rfl := Turn.next.inj h
      refine ⟨rfl, Nat.lt_of_le_of_lt (Rp.size_behind_le _) ?_⟩
      simp [Rp.size, hlen, hp]
    · rw [he]
      refine ⟨fun h => ?_, fun h => (by cases h)⟩
      obtain rfl := Turn.next.inj h
      refine ⟨rfl, Nat.lt_of_le_of_lt (Rp.size_behind_le _) ?_⟩
      simp [Rp.size, hlen, hp, dotdot]
    · rw [he]
      refine ⟨fun h => Rp.size_skip hs hrest (fun h0 => ⟨hempty h0, ?_⟩) h, fun h => ?_⟩
      · simpa [h0] using hp
      · unfold Rp.skip at h
        split at h <;> cases h
    · rw [he]
      refine ⟨fun h => ?_, follow_uses⟩
      unfold Env.follow at h
      split at h
      · cases h
      split at h
      · cases h
      split at h <;> cases h

/-- **A walk ends** within its fuel. -/
theorem walk_isSome (fuel : Nat) (s : Rp) (hcnt : s.cnt < symloopMax)
    (hfuel : (symloopMax - s.cnt) * (env.pathMax + 2) + s.size < fuel) :
    (env.walk files fuel s).isSome = true := by
  induction fuel generalizing s with
  | zero => omega
  | succ fuel ih =>
    rw [Env.walk]
    cases ht : env.turn files s with
    | done => rfl
    | fail e => rfl
    | next t =>
      obtain ⟨hc, hsize⟩ := turn_uses.1 ht
      have hc' : t.behind.cnt = s.cnt := hc
      refine ih t.behind (by omega) ?_
      rw [hc']
      omega
    | restart t =>
      obtain ⟨hc, hne, hlen⟩ := turn_uses.2 ht
      refine ih t (by omega) ?_
      have hsize : t.size ≤ env.pathMax := by
        simp only [Rp.size]
        split <;> omega
      have hlinks : symloopMax - s.cnt = symloopMax - t.cnt + 1 := by omega
      rw [hlinks, Nat.add_mul] at hfuel
      omega

/-- `realpath` always answers. -/
theorem realpath_isSome (roots : Roots) (filename : Str) :
    (env.realpath files roots filename).isSome = true := by
  unfold Env.realpath
  split
  · rfl
  · split
    · rfl
    split
    · rfl
    split
    · rfl
    · rename_i o _ _ hlen _
      rw [Option.isSome_map]
      apply walk_isSome
      · show 0 < symloopMax
        decide
      · have := length_le_width8 o
        simp only [Rp.size, Env.fuel, symloopMax, Bool.false_eq_true, if_false]
        omega

end Turns

/-! ## The walk on a share -/

/-- The output after the names `st`, newest first, of a path that starts with "//". -/
def rpOut (st : List Str) : Str := if st = [] then [slash, slash] else slash :: spell slash st.reverse

/-- No path made of these components is a link. -/
def Files.NoLinks (files : Files) (ps : List Str) : Prop :=
  ∀ qs : List Str, (∀ q ∈ qs, q ∈ ps) → ∀ t, files.readlink (slash :: spell slash qs) ≠ .ok t

section Share

variable {env : Env} {files : Files} {st : List Str} {part rest w : Str}

theorem spell_append (sep : UInt16) (ps qs : List Str) :
    spell sep (ps ++ qs) = spell sep ps ++ spell sep qs := List.flatMap_append

theorem rpOut_cons (p : Str) (st : List Str) : rpOut (p :: st) = slash :: (spell slash st.reverse ++
    slash :: p) := by
  simp [rpOut, spell]

theorem getLast_append_ne {α : Type*} {a b : List α} (hb : b ≠ []) : (a ++ b).getLast? = b.getLast? := by
  rw [List.getLast?_append, List.getLast?_eq_some_getLast hb]
  rfl

theorem Rp.full_rpOut {s : Rp} (hout : s.output = rpOut st) (hst : ∀ p ∈ st, Proper p) (part : Str) :
    s.full part = rpOut (part :: st) := by
  unfold Rp.full
  rw [hout, rpOut_cons]
  cases st with
  | nil => simp [rpOut, spell]
  | cons p st =>
    have hp := hst p (by simp)
    have hlast : (rpOut (p :: st)).getLast? ≠ some slash := by
      rw [rpOut_cons]
      have : slash :: (spell slash st.reverse ++ slash :: p) =
          (slash :: (spell slash st.reverse ++ [slash])) ++ p := by simp
      rw [this, getLast_append_ne hp.ne_nil]
      intro h
      have := hp.noSlash slash (List.mem_of_getLast? h)
      exact absurd this (by decide)
    have hne : rpOut (p :: st) ≠ [] := by simp [rpOut_cons]
    rw [if_pos ⟨hne, hlast⟩, rpOut_cons]
    simp [spell]

theorem trim_rpOut (hst : ∀ p ∈ st, Proper p) : trim (rpOut st) = rpOut st.tail := by
  have hdrop : ∀ (a : Str) (p : Str), (∀ x ∈ p, isSlash x = false) →
      ((a ++ slash :: p).reverse.dropWhile (· ≠ slash)).reverse = a ++ [slash] := by
    intro a p hp
    have hrev : (a ++ slash :: p).reverse = p.reverse ++ slash :: a.reverse := by simp
    rw [hrev, List.dropWhile_append_of_pos]
    · simp
    · intro x hx
      simpa using ne_slash (hp x (List.mem_reverse.mp hx))
  cases st with
  | nil => rfl
  | cons p st =>
    have hp := (hst p (by simp)).noSlash
    have happ : rpOut (p :: st) = (slash :: spell slash st.reverse) ++ slash :: p := by
      rw [rpOut_cons]
      rfl
    rw [trim, happ, hdrop _ _ hp]
    cases st with
    | nil => rfl
    | cons q st =>
      have hq := List.length_pos_iff.mpr (hst q (by simp)).ne_nil
      have hlen : (slash :: spell slash (q :: st).reverse ++ [slash]).length > 2 := by
        simp only [spell, List.reverse_cons, List.flatMap_append, List.flatMap_singleton,
          List.length_append, List.length_cons]
        omega
      rw [if_pos ⟨by omega, Or.inl hlen⟩, List.dropLast_concat]
      rfl

/-- Separators in front do not move. -/
theorem clamp_behind (st : List Str) (w : Str) :
    clamp st (moves (w.dropWhile (· = slash))) = clamp st (moves w) := by
  induction w with
  | nil => rfl
  | cons c w ih =>
    by_cases hc : c = slash
    · rw [hc, moves_sep isSlash_slash, List.dropWhile_cons_of_pos (by simp)]
      exact ih
    · rw [List.dropWhile_cons_of_neg (by simpa using hc)]

/-- The moves of a component and of what follows it. -/
theorem clamp_part (st : List Str) (hp : ∀ x ∈ part, isSlash x = false)
    (hrest : rest = [] ∨ rest.head? = some slash) :
    clamp st (moves (part ++ rest)) =
      clamp (clamp st [move part]) (moves (rest.dropWhile (· = slash))) := by
  rcases hrest with rfl | hr
  · rw [List.append_nil, moves, components_last hp]
    rfl
  · cases rest with
    | nil => cases hr
    | cons c rest =>
      obtain rfl : c = slash := by simpa using hr
      have hcons : move part :: moves rest = [move part] ++ moves rest := rfl
      rw [moves_cons hp isSlash_slash, hcons, clamp_append, clamp_behind, moves_sep isSlash_slash]
      rfl

theorem mem_components_behind {q : Str} (hq : q ∈ components (rest.dropWhile (· = slash))) :
    q = [] ∨ q ∈ components rest := by
  induction rest with
  | nil => exact Or.inr hq
  | cons c rest ih =>
    by_cases hc : c = slash
    · rw [List.dropWhile_cons_of_pos (by simpa using hc)] at hq
      rw [hc, components_sep isSlash_slash]
      rcases ih hq with h | h
      · exact Or.inl h
      · exact Or.inr (by simp [h])
    · rw [List.dropWhile_cons_of_neg (by simpa using hc)] at hq
      exact Or.inr hq

theorem head_behind (w : Str) : (w.dropWhile (· = slash)).head? ≠ some slash := by
  intro h
  have := List.head?_dropWhile_not (· = slash) w
  rw [h] at this
  simp at this

theorem mem_clamp_one {p : Str} (hp : p ∈ clamp st [move part]) :
    p ∈ st ∨ (p = part ∧ move part = .name part) := by
  cases hm : move part with
  | stay =>
    rw [hm] at hp
    exact Or.inl hp
  | up =>
    rw [hm] at hp
    exact Or.inl (List.mem_of_mem_tail hp)
  | name q =>
    obtain rfl := (move_name hm).1
    rw [hm] at hp
    rcases List.mem_cons.mp hp with rfl | hp
    · exact Or.inr ⟨rfl, rfl⟩
    · exact Or.inl hp

/-- What a turn without links makes of the output: it is trimmed, kept or extended. -/
theorem skip_rpOut {s t : Rp} (hout : s.output = rpOut st) (hst : ∀ p ∈ st, Proper p)
    (hdot : part ≠ [dot]) (h : s.skip part (s.full part) rest = .next t) :
    t.output = rpOut (clamp st [move part]) ∧ t.stack = rest ∧ t.nup = s.nup := by
  unfold Rp.skip at h
  split at h
  · rename_i hup
    obtain rfl := Turn.next.inj h
    refine ⟨?_, rfl, rfl⟩
    show trim s.output = _
    rw [hout, trim_rpOut hst, hup]
    rfl
  · rename_i hup
    obtain rfl := Turn.next.inj h
    refine ⟨?_, rfl, rfl⟩
    show (if part = [] then s.output else s.full part) = _
    split
    · rename_i hp
      rw [hout, hp]
      rfl
    · rename_i hp
      have hm : move part = .name part := by
        unfold move
        rw [if_neg (by simpa using ⟨hp, hdot⟩), if_neg hup]
      rw [s.full_rpOut hout hst, hm]
      rfl

/-- **Without links** the walk comes to where the moves of its path lead. -/
theorem walk_rpOut {ps : List Str} (hlinks : files.NoLinks ps) (h0 : [] ∈ ps) (fuel : Nat)
    (s t : Rp) (st : List Str) (hout : s.output = rpOut st) (hst : ∀ p ∈ st, Proper p)
    (hmem : ∀ p ∈ st, p ∈ ps) (hcomp : ∀ p ∈ components s.stack, p ∈ ps) (hback : bslash ∉ s.stack)
    (hhead : s.stack.head? ≠ some slash) (hnup : s.nup = 0)
    (h : env.walk files fuel s = some (.ok t)) : t.output = rpOut (clamp st (moves s.stack)) := by
  induction fuel generalizing s st with
  | zero => cases h
  | succ fuel ih =>
    obtain ⟨hs, hrest, hempty⟩ := stack_split hhead
    have hpart : ∀ x ∈ s.stack.takeWhile (· ≠ slash), isSlash x = false := by
      intro x hx
      have h₁ : x ≠ slash := by simpa using List.mem_takeWhile_imp hx
      have h₂ : x ≠ bslash := by
        rintro rfl
        exact hback (List.takeWhile_subset _ hx)
      simp [isSlash, h₁, h₂]
    rw [Env.walk, Env.turn, if_neg hhead] at h
    generalize s.stack.takeWhile (· ≠ slash) = part at hs hempty hpart h
    generalize s.stack.dropWhile (· ≠ slash) = rest at hs hrest hempty h
    have hmempart : part ∈ ps ∧ ∀ p ∈ components (rest.dropWhile (· = slash)), p ∈ ps := by
      rw [hs] at hcomp
      rcases hrest with rfl | hr
      · rw [List.append_nil, components_last hpart] at hcomp
        refine ⟨hcomp part (by simp), fun p hp => ?_⟩
        have : p = [] := List.mem_singleton.mp hp
        rw [this]
        exact h0
      · cases rest with
        | nil => cases hr
        | cons c rest =>
          obtain rfl : c = slash := by simpa using hr
          rw [components_cons hpart isSlash_slash] at hcomp
          refine ⟨hcomp part (by simp), fun p hp => ?_⟩
          rw [List.dropWhile_cons_of_pos (by simp)] at hp
          rcases mem_components_behind hp with rfl | hp
          · exact h0
          · exact hcomp p (by simp [hp])
    -- the turns that go on, whatever they did to the output
    have hgo : ∀ s₁ : Rp, s₁.output = rpOut (clamp st [move part]) → s₁.stack = rest →
        s₁.nup = 0 → env.walk files fuel s₁.behind = some (.ok t) →
          t.output = rpOut (clamp st (moves s.stack)) := by
      intro s₁ hout₁ hstack₁ hnup₁ hwalk
      have hstack : s₁.behind.stack = rest.dropWhile (· = slash) := by
        rw [← hstack₁]
        rfl
      rw [hs, clamp_part st hpart hrest, ← hstack]
      refine ih s₁.behind (clamp st [move part]) hout₁ ?_ ?_ ?_ ?_ ?_ hnup₁ hwalk
      · intro p hp
        rcases mem_clamp_one hp with hp | ⟨rfl, hm⟩
        · exact hst p hp
        · obtain ⟨-, h₁, h₂, h₃⟩ := move_name hm
          exact ⟨h₁, hpart, h₂, h₃⟩
      · intro p hp
        rcases mem_clamp_one hp with hp | ⟨rfl, -⟩
        · exact hmem p hp
        · exact hmempart.1
      · rw [hstack]
        exact hmempart.2
      · rw [hstack]
        intro hb
        apply hback
        rw [hs]
        exact List.mem_append_right part (List.dropWhile_subset _ hb)
      · rw [hstack]
        exact head_behind rest
    rcases component_cases env files s part rest with ⟨hp, -, he⟩ | ⟨e, he⟩ | ⟨hp, he⟩ |
      ⟨-, hq, he⟩ | ⟨-, hdot, he⟩ | ⟨link, hlink, -⟩
    · rw [he] at h
      cases h
      rw [hs, hp, hempty hp]
      exact hout
    · rw [he] at h
      cases h
    · rw [he] at h
      refine hgo { s with stack := rest } ?_ rfl hnup h
      rw [hp]
      exact hout
    · exfalso
      rw [hnup, hout] at hq
      have := length_le_width8 (rpOut st)
      cases st with
      | nil => exact absurd hq (by decide)
      | cons p st =>
        rw [rpOut_cons] at this hq
        simp only [List.length_cons] at this
        omega
    · rw [he] at h
      cases hskip : s.skip part (s.full part) rest with
      | next s₁ =>
        rw [hskip] at h
        obtain ⟨h₁, h₂, h₃⟩ := skip_rpOut hout hst hdot hskip
        exact hgo s₁ h₁ h₂ (h₃.trans hnup) h
      | done =>
        unfold Rp.skip at hskip
        split at hskip <;> cases hskip
      | fail e =>
        unfold Rp.skip at hskip
        split at hskip <;> cases hskip
      | restart s₁ =>
        unfold Rp.skip at hskip
        split at hskip <;> cases hskip
    · exfalso
      rw [s.full_rpOut hout hst] at hlink
      refine hlinks ((part :: st).reverse) ?_ link hlink
      intro q hq
      rcases List.mem_cons.mp (List.mem_reverse.mp hq) with rfl | hq
      · exact hmempart.1
      · exact hmem q hq

theorem forward_cons_sep {c : UInt16} (hc : isSlash c = true) (w : Str) :
    forward (c :: w) = slash :: forward w := by
  simp only [isSlash, Bool.or_eq_true, decide_eq_true_eq] at hc
  rcases hc with rfl | rfl <;> rfl

theorem components_forward (w : Str) : components (forward w) = components w := by
  induction w using pieces_induction isSlash with
  | last w h => rw [forward_name h]
  | step p c rest h hc ih =>
    rw [forward_append, forward_name h, forward_cons_sep hc, components_cons h isSlash_slash,
      components_cons h hc, ih]

theorem bslash_not_mem_forward (w : Str) : bslash ∉ forward w := by
  intro h
  obtain ⟨x, -, hx⟩ := List.mem_map.mp h
  split at hx
  · exact absurd hx (by decide)
  · contradiction

/-- The components behind a name, whatever follows it. -/
theorem components_behind_name {p : Str} (hp : ∀ x ∈ p, isSlash x = false) (hr : Below rest) :
    components (p ++ rest) = p :: (components rest).tail := by
  cases rest with
  | nil => rw [List.append_nil, components_last hp]; rfl
  | cons c rest =>
    have hc := hr c rfl
    rw [components_cons hp hc, components_sep hc]
    rfl

theorem clamp_below (st : List Str) (hr : Below rest) :
    clamp st ((components rest).tail.map move) = clamp st (moves rest) := by
  cases rest with
  | nil => rfl
  | cons c rest =>
    have hc := hr c rfl
    rw [moves_sep hc, components_sep hc]
    rfl

theorem Below.forward (hr : Below rest) : Below (forward rest) := by
  cases rest with
  | nil => exact hr
  | cons c rest =>
    rw [forward_cons_sep (hr c rfl)]
    exact below_cons isSlash_slash _

theorem nil_mem_components (hr : Below rest) : [] ∈ components rest := by
  cases rest with
  | nil => exact List.mem_singleton.mpr rfl
  | cons c rest =>
    rw [components_sep (hr c rfl)]
    exact List.mem_cons_self

variable {server name : Str}

theorem forward_sharePath (hs : IsServer server) (hn : Proper name) :
    forward (sharePath slash server name rest) = sharePath slash server name (forward rest) := by
  have hroot : forward (shareRoot slash server name) = shareRoot slash server name := by
    rw [shareRoot, forward_append, forward_name hs.proper.noSlash,
      forward_cons_sep isSlash_slash, forward_name hn.noSlash]
  rw [sharePath, forward_cons_sep isSlash_slash, forward_cons_sep isSlash_slash, forward_append,
    hroot]
  rfl

/-- The components of a share path, server and share first. -/
theorem components_share {sep : UInt16} (hsep : isSlash sep = true) (hs : IsServer server)
    (hn : Proper name) (hr : Below rest) :
    components (shareRoot sep server name ++ rest) = server :: name :: (components rest).tail := by
  rw [shareRoot, List.append_assoc, List.cons_append, components_cons hs.proper.noSlash hsep,
    components_behind_name hn.noSlash hr]

/-- A path that starts with two separators is walked as it is. -/
theorem realpath_walk (roots : Roots) {o r : Str} {c : UInt16} (hc : isSlash c = false)
    (h : env.realpath files roots (slash :: slash :: c :: o) = some (.ok r)) :
    width8 (slash :: slash :: c :: o) < env.pathMax ∧
      ∃ t, env.walk files env.fuel ⟨[], forward (slash :: slash :: c :: o), false, 0, 0⟩ =
        some (.ok t) ∧ env.close files t = .ok r := by
  have hfwd : forward (slash :: slash :: c :: o) = slash :: slash :: c :: forward o := by
    show slash :: slash :: (if c = bslash then slash else c) :: forward o = _
    rw [if_neg (ne_bslash hc)]
  have hopen : env.openPath roots (slash :: slash :: c :: o) =
      if width8 (slash :: slash :: c :: o) ≥ env.pathMax then .error .enametoolong
      else .ok (slash :: slash :: c :: forward o) := by
    have halpha : alphaAt (slash :: slash :: c :: forward o) 0 = false := by
      show isAlpha slash.toNat = false
      decide
    have hcol : isCollapsedUnc roots (slash :: slash :: c :: forward o) = false := by
      simp [isCollapsedUnc, slashAt, isSlash_slash]
    simp only [Env.openPath, hfwd, halpha, Bool.false_and, Bool.false_eq_true, if_false, hcol]
  have hjoin : env.joinCwd files (slash :: slash :: c :: forward o) =
      .ok (slash :: slash :: c :: forward o) := if_pos rfl
  have hwidth : width8 (slash :: slash :: c :: forward o) = width8 (slash :: slash :: c :: o) := by
    rw [← hfwd, width8_forward]
  have hzip : ¬ ((slash :: slash :: c :: forward o).take 4 = zipMark ∧
      ((slash :: slash :: c :: forward o).length = 4 ∨
        (slash :: slash :: c :: forward o).getD 4 0 = slash)) := by
    rintro ⟨hz, -⟩
    exact absurd (List.cons.inj (List.cons.inj hz).2).1 (by decide)
  by_cases hw : width8 (slash :: slash :: c :: o) ≥ env.pathMax
  · rw [Env.realpath, hopen, if_pos hw] at h
    cases h
  · have hbind : (env.openPath roots (slash :: slash :: c :: o) >>= env.joinCwd files) =
        .ok (slash :: slash :: c :: forward o) := by
      rw [hopen, if_neg hw]
      exact hjoin
    rw [Env.realpath, hbind] at h
    simp only [reduceCtorEq, if_false, hwidth, if_neg hw, if_neg hzip] at h
    obtain ⟨e, he, hclose⟩ := Option.map_eq_some_iff.mp h
    cases e with
    | error e => cases hclose
    | ok t =>
      refine ⟨by omega, t, ?_, hclose⟩
      rw [hfwd]
      exact he

/-- **`realpath` on a share**: server and share are names like any other. -/
theorem realpath_share (roots : Roots) (hs : IsServer server) (hn : Proper name) (hr : Below rest)
    (hlinks : files.NoLinks (server :: name :: components rest)) {r : Str}
    (h : env.realpath files roots (sharePath slash server name rest) = some (.ok r)) :
    r = rpOut (clamp [name, server] (moves rest)) ∧
      width8 (sharePath slash server name rest) < env.pathMax := by
  have hhead : (shareRoot slash server name ++ forward rest).head? ≠ some slash := by
    cases server with
    | nil => exact absurd rfl hs.proper.ne_nil
    | cons c w =>
      intro hc
      have : c = slash := by simpa [shareRoot] using hc
      exact ne_slash (hs.proper.noSlash c (by simp)) this
  obtain ⟨hwidth, t, hwalk, hclose⟩ : width8 (sharePath slash server name rest) < env.pathMax ∧
      ∃ t, env.walk files env.fuel ⟨[], forward (sharePath slash server name rest), false, 0, 0⟩ =
        some (.ok t) ∧ env.close files t = .ok r := by
    cases server with
    | nil => exact absurd rfl hs.proper.ne_nil
    | cons c w => exact realpath_walk roots (hs.proper.noSlash c (by simp)) h
  refine ⟨?_, hwidth⟩
  rw [forward_sharePath hs hn] at hwalk
  obtain ⟨fuel, hfuel⟩ : ∃ fuel, env.fuel = fuel + 1 := by
    refine ⟨env.fuel - 1, ?_⟩
    have : 0 < env.fuel := Nat.mul_pos (by decide) (by omega)
    omega
  have hturn : env.turn files ⟨[], sharePath slash server name (forward rest), false, 0, 0⟩ =
      .next ⟨[slash, slash], slash :: (shareRoot slash server name ++ forward rest), false, 0, 0⟩ := by
    simp only [Env.turn, sharePath, List.head?_cons, List.tail_cons, if_true, ne_eq, hhead,
      not_false_eq_true, and_self]
  have hdrop : (slash :: (shareRoot slash server name ++ forward rest)).dropWhile (· = slash) =
      shareRoot slash server name ++ forward rest := by
    rw [List.dropWhile_cons_of_pos (by simp)]
    cases hw : shareRoot slash server name ++ forward rest with
    | nil => rfl
    | cons c w =>
      rw [hw] at hhead
      exact List.dropWhile_cons_of_neg (by simpa using hhead)
  have hcomp := components_share isSlash_slash hs hn hr.forward
  rw [components_forward] at hcomp
  rw [hfuel, Env.walk, hturn] at hwalk
  simp only [hdrop] at hwalk
  have hroot : bslash ∉ shareRoot slash server name := by
    intro hb
    rcases List.mem_append.mp hb with hb | hb
    · exact absurd (hs.proper.noSlash _ hb) (by decide)
    · rcases List.mem_cons.mp hb with hb | hb
      · exact absurd hb (by decide)
      · exact absurd (hn.noSlash _ hb) (by decide)
  have hout := walk_rpOut hlinks (by simp [nil_mem_components hr]) fuel _ t [] rfl (by simp) (by simp)
    (by
      intro p hp
      have hp : p ∈ components (shareRoot slash server name ++ forward rest) := hp
      rw [hcomp] at hp
      simp only [List.mem_cons] at hp ⊢
      exact hp.imp_right (Or.imp_right List.mem_of_mem_tail))
    (by
      intro hb
      rcases List.mem_append.mp hb with hb | hb
      · exact hroot hb
      · exact bslash_not_mem_forward rest hb)
    hhead rfl hwalk
  have hmoves : clamp [] (moves (shareRoot slash server name ++ forward rest)) =
      clamp [name, server] (moves rest) := by
    rw [moves, hcomp, List.map_cons, List.map_cons, hs.proper.move, hn.move, clamp, clamp,
      clamp_below _ hr]
  have hstack : t.output = rpOut (clamp [name, server] (moves rest)) := by
    rw [hout]
    exact congrArg rpOut hmoves
  have hslash : t.output.head? = some slash := by
    rw [hstack, rpOut]
    split <;> rfl
  rw [Env.close, if_pos hslash] at hclose
  rw [← Except.ok.inj hclose, hstack]

end Share

end ApeShim.Nt
