import ApeShim.Lib.Walk

/-!
Where a path leads in a tree with symbolic links. A place is a root and the names down from it; a
path goes through its moves, and where a name is a link, through the link's path first. The links on
the way are counted. From which places one may go up is left open: where a file takes "..", a path
may leave it again. A move that stays asks for a directory only at the end of a path, so it may be
left out in front of others.
-/

namespace Resolve
open Walk

variable {ρ ν : Type*}

/-- A root, and the names down from it, the last one first. -/
structure Place (ρ ν : Type*) where
  root : ρ
  names : List ν
  deriving DecidableEq

def Place.down (p : Place ρ ν) (x : ν) : Place ρ ν := ⟨p.root, x :: p.names⟩

/-- The parent; a root is its own. -/
def Place.up (p : Place ρ ν) : Place ρ ν := ⟨p.root, p.names.tail⟩

/-- The root that it starts anew from, if it is absolute, and its moves. -/
structure Route (ρ ν : Type*) where
  root : Option ρ
  moves : List (Move ν)

/-- Where a path starts that stands at a place. -/
def Place.from (p : Place ρ ν) (l : Route ρ ν) : Place ρ ν := (l.root.map fun r => ⟨r, []⟩).getD p

inductive Kind (ρ ν : Type*)
  | dir
  | file
  | link (l : Route ρ ν)

/-- What there is. Roots are directories, and names are in directories. -/
structure FileTree (ρ ν : Type*) where
  kind : Place ρ ν → Option (Kind ρ ν)
  root : ∀ r, kind ⟨r, []⟩ = some .dir
  parent : ∀ p x, kind (p.down x) ≠ none → kind p = some .dir

def FileTree.Dir (t : FileTree ρ ν) (p : Place ρ ν) : Prop := t.kind p = some .dir

/-- There is something, and it is no link. -/
def FileTree.Real (t : FileTree ρ ν) (p : Place ρ ν) : Prop :=
  t.kind p = some .dir ∨ t.kind p = some .file

/-- From `p`, the moves lead over `n` links to `q`, with `..` taken at the places `C`. -/
inductive Resolves (t : FileTree ρ ν) (C : Place ρ ν → Prop) :
    Place ρ ν → List (Move ν) → Nat → Place ρ ν → Prop
  | done {p} : Resolves t C p [] 0 p
  | stay {p ms n q} : (ms = [] → t.Dir p) → Resolves t C p ms n q →
      Resolves t C p (.stay :: ms) n q
  | up {p ms n q} : C p → Resolves t C p.up ms n q → Resolves t C p (.up :: ms) n q
  | name {p x ms n q} : t.Real (p.down x) → Resolves t C (p.down x) ms n q →
      Resolves t C p (.name x :: ms) n q
  | link {p x l ms n q} : t.kind (p.down x) = some (.link l) →
      Resolves t C (p.from l) (l.moves ++ ms) n q → Resolves t C p (.name x :: ms) (n + 1) q

variable {t : FileTree ρ ν} {C : Place ρ ν → Prop} {p q : Place ρ ν} {ms ms' : List (Move ν)}
  {n : Nat}

theorem FileTree.Dir.real (h : t.Dir p) : t.Real p := Or.inl h

theorem FileTree.Real.parent {x : ν} (h : t.Real (p.down x)) : t.Dir p := by
  refine t.parent p x fun hnone => ?_
  rcases h with h | h
  · cases hnone.symm.trans h
  · cases hnone.symm.trans h

theorem FileTree.Real.not_link (h : t.Real p) (l : Route ρ ν) : t.kind p ≠ some (.link l) := by
  intro hl
  rcases h with h | h
  · cases h.symm.trans hl
  · cases h.symm.trans hl

/-- The parent of a place that is there is a directory. -/
theorem FileTree.Real.up_dir (h : t.Real p) : t.Dir p.up := by
  obtain ⟨r, names⟩ := p
  cases names with
  | nil => exact t.root r
  | cons x names => exact h.parent (p := ⟨r, names⟩)

/-- A path that is taken from a place that is there starts at one. -/
theorem FileTree.Real.from (h : t.Real p) (l : Route ρ ν) : t.Real (p.from l) := by
  rw [Place.from]
  cases l.root with
  | none => exact h
  | some r => exact FileTree.Dir.real (t.root r)

/-- Where a path leads is no link, and so all its parents are directories. -/
theorem Resolves.real (h : Resolves t C p ms n q) (hp : t.Real p) : t.Real q := by
  induction h with
  | done => exact hp
  | stay _ _ ih => exact ih hp
  | up _ _ ih => exact ih hp.up_dir.real
  | name hreal _ ih => exact ih hreal
  | link _ _ ih => exact ih (hp.from _)

theorem resolves_nil : Resolves t C p [] n q ↔ n = 0 ∧ q = p := by
  constructor
  · intro h
    cases h
    exact ⟨rfl, rfl⟩
  · rintro ⟨rfl, rfl⟩
    exact .done

theorem resolves_stay : Resolves t C p (.stay :: ms) n q ↔
    (ms = [] → t.Dir p) ∧ Resolves t C p ms n q := by
  constructor
  · intro h
    cases h with
    | stay hdir hrest => exact ⟨hdir, hrest⟩
  · rintro ⟨hdir, hrest⟩
    exact .stay hdir hrest

/-- The question is for what follows, if anything does. -/
theorem resolves_stay_of_ne_nil (h : ms ≠ []) :
    Resolves t C p (.stay :: ms) n q ↔ Resolves t C p ms n q := by
  rw [resolves_stay, and_iff_right fun hnil => absurd hnil h]

theorem resolves_stay_of_dir (h : t.Dir p) :
    Resolves t C p (.stay :: ms) n q ↔ Resolves t C p ms n q := by
  rw [resolves_stay, and_iff_right fun _ => h]

theorem resolves_up : Resolves t C p (.up :: ms) n q ↔ C p ∧ Resolves t C p.up ms n q := by
  constructor
  · intro h
    cases h with
    | up hup hrest => exact ⟨hup, hrest⟩
  · rintro ⟨hup, hrest⟩
    exact .up hup hrest

section Names

variable {x : ν} {l : Route ρ ν}

theorem not_resolves_name (h : t.kind (p.down x) = none) :
    ¬ Resolves t C p (.name x :: ms) n q := by
  intro hres
  cases hres with
  | name hreal _ =>
      rcases hreal with hreal | hreal
      · cases h.symm.trans hreal
      · cases h.symm.trans hreal
  | link hlink _ => cases h.symm.trans hlink

theorem resolves_name (h : t.Real (p.down x)) :
    Resolves t C p (.name x :: ms) n q ↔ Resolves t C (p.down x) ms n q := by
  constructor
  · intro hres
    cases hres with
    | name _ hrest => exact hrest
    | link hlink _ => exact absurd hlink (h.not_link _)
  · exact .name h

theorem resolves_link (h : t.kind (p.down x) = some (.link l)) :
    Resolves t C p (.name x :: ms) n q ↔
      ∃ m, n = m + 1 ∧ Resolves t C (p.from l) (l.moves ++ ms) m q := by
  constructor
  · intro hres
    cases hres with
    | name hreal _ => exact absurd h (hreal.not_link _)
    | link hlink hrest =>
        cases h.symm.trans hlink
        exact ⟨_, rfl, hrest⟩
  · rintro ⟨m, rfl, hrest⟩
    exact .link h hrest

end Names

/-- What leads to a place as the end of a path leads there behind any other moves. -/
theorem Resolves.replace (hms : ms' ≠ [])
    (h : ∀ p n, Resolves t C p ms n q → Resolves t C p ms' n q) {front : List (Move ν)}
    (hres : Resolves t C p (front ++ ms) n q) : Resolves t C p (front ++ ms') n q := by
  have hend : ∀ front : List (Move ν), front ++ ms' ≠ [] := fun front => by simp [hms]
  generalize hall : front ++ ms = all at hres
  induction hres generalizing front with
  | done =>
      obtain ⟨rfl, rfl⟩ := List.append_eq_nil_iff.mp hall
      exact h _ _ .done
  | stay hdir hrest ih =>
      rcases List.append_eq_cons_iff.mp hall with ⟨rfl, rfl⟩ | ⟨front, rfl, rfl⟩
      · exact h _ _ (.stay hdir hrest)
      · exact .stay (fun hnil => absurd hnil (hend front)) (ih h rfl)
  | up hup hrest ih =>
      rcases List.append_eq_cons_iff.mp hall with ⟨rfl, rfl⟩ | ⟨front, rfl, rfl⟩
      · exact h _ _ (.up hup hrest)
      · exact .up hup (ih h rfl)
  | name hreal hrest ih =>
      rcases List.append_eq_cons_iff.mp hall with ⟨rfl, rfl⟩ | ⟨front, rfl, rfl⟩
      · exact h _ _ (.name hreal hrest)
      · exact .name hreal (ih h rfl)
  | link hlink hrest ih =>
      rcases List.append_eq_cons_iff.mp hall with ⟨rfl, rfl⟩ | ⟨front, rfl, rfl⟩
      · exact h _ _ (.link hlink hrest)
      · have hjoin := ih h (List.append_assoc _ front ms)
        rw [List.append_assoc] at hjoin
        exact .link hlink hjoin

/-- Ends that lead to the same places may stand for each other. -/
theorem resolves_congr (hms : ms ≠ []) (hms' : ms' ≠ [])
    (h : ∀ p n, Resolves t C p ms n q ↔ Resolves t C p ms' n q) (front : List (Move ν)) :
    Resolves t C p (front ++ ms) n q ↔ Resolves t C p (front ++ ms') n q :=
  ⟨.replace hms' fun p n => (h p n).mp, .replace hms fun p n => (h p n).mpr⟩

end Resolve
