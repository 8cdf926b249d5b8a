import Mathlib
import ApeShim.Lib.Walk

/-!
Characters and components of paths on NT. A path is the list of its UTF-16 units
on either side of `tprecode8to16`: what the code tests on the 8-bit spelling are
ASCII characters only, which are the same on both sides.
-/

namespace ApeShim.Nt
open Walk

abbrev Str := List UInt16

/-- Decided along the string, not by trying every unit there is. -/
instance (priority := high) (s : Str) (p : UInt16 → Prop) [DecidablePred p] :
    Decidable (∀ c ∈ s, p c) :=
  List.decidableBAll p s

def slash : UInt16 := 0x2F
def bslash : UInt16 := 0x5C
def dot : UInt16 := 0x2E
def colon : UInt16 := 0x3A
def quest : UInt16 := 0x3F

def ascii (cs : List Char) : Str := cs.map fun c => UInt16.ofNat c.toNat

def isAlpha (c : Nat) : Bool := (0x41 ≤ c && c ≤ 0x5A) || (0x61 ≤ c && c ≤ 0x7A)

def lower (c : Nat) : Nat := if 0x41 ≤ c ∧ c ≤ 0x5A then c + 0x20 else c

/-- `DriveExists`, for one answer of `GetLogicalDrives`. -/
def driveExists (drives : BitVec 32) (letter : Nat) : Bool := drives.getLsbD (lower letter - 0x61)

/-- `IsSlash`. -/
def isSlash (c : UInt16) : Bool := c = slash || c = bslash

/-- `IsSlash` of a `char16_t`, which it takes as a `char`. -/
def isSlash16 (c : UInt16) : Bool := isSlash (c &&& 0xFF)

/-- The bytes a unit takes in UTF-8, half of four for a surrogate. -/
def unitWidth (c : UInt16) : Nat :=
  if c < 0x80 then 1 else if c < 0x800 then 2 else if 0xD800 ≤ c ∧ c < 0xE000 then 2 else 3

/-- The 8-bit length of a text. -/
def width8 (s : Str) : Nat := (s.map unitWidth).sum

/-! ## Components -/

def dotdot : Str := [dot, dot]

/-- What a component asks for. -/
def move (p : Str) : Move Str :=
  if p = [] ∨ p = [dot] then .stay else if p = dotdot then .up else .name p

/-- The components of a path, empty ones included. -/
def components (w : Str) : List Str := w.splitOnP isSlash

def moves (w : Str) : List (Move Str) := (components w).map move

/-- A component that names something. -/
structure Proper (p : Str) : Prop where
  ne_nil : p ≠ []
  noSlash : ∀ x ∈ p, isSlash x = false
  ne_dot : p ≠ [dot]
  ne_dotdot : p ≠ dotdot

/-- Only the separators look like separators in their low byte. -/
def Plain (w : Str) : Prop := ∀ x ∈ w, isSlash16 x = true → isSlash x = true

instance (p : Str) : Decidable (Plain p) := inferInstanceAs (Decidable (∀ x ∈ p, _))

theorem Proper.move {p : Str} (h : Proper p) : move p = .name p := by
  unfold Nt.move
  rw [if_neg, if_neg h.ne_dotdot]
  rintro (he | he)
  · exact h.ne_nil he
  · exact h.ne_dot he

theorem move_name {p q : Str} (h : move p = .name q) : q = p ∧ p ≠ [] ∧ p ≠ [dot] ∧ p ≠ dotdot := by
  unfold move at h
  split at h
  · cases h
  · rename_i hs
    split at h
    · cases h
    · rename_i hu
      cases h
      exact ⟨rfl, fun he => hs (Or.inl he), fun he => hs (Or.inr he), hu⟩

theorem move_stay {p : Str} (h : move p = .stay) : p = [] ∨ p = [dot] := by
  unfold move at h
  split at h
  · assumption
  · split at h <;> cases h

theorem move_up {p : Str} (h : move p = .up) : p = dotdot := by
  unfold move at h
  split at h
  · cases h
  · split at h
    · assumption
    · cases h

/-- A component that is entered. -/
def named (p : Str) : Bool := p ≠ [] && p ≠ [dot] && p ≠ dotdot

theorem named_eq_false (p : Str) : named p = false ↔ move p = .stay ∨ move p = .up := by
  unfold named move
  by_cases h₀ : p = []
  · simp [h₀]
  by_cases h₁ : p = [dot]
  · simp [h₁]
  by_cases h₂ : p = dotdot
  · simp [h₂, dotdot]
  · simp [h₀, h₁, h₂]

theorem components_ne_nil (w : Str) : components w ≠ [] := List.splitOnP_ne_nil isSlash w

theorem components_last {w : Str} (h : ∀ x ∈ w, isSlash x = false) : components w = [w] :=
  List.splitOnP_eq_singleton h

theorem components_cons {p : Str} {s : UInt16} (h : ∀ x ∈ p, isSlash x = false)
    (hs : isSlash s = true) (rest : Str) : components (p ++ s :: rest) = p :: components rest :=
  List.splitOnP_append_cons_of_forall_mem h s hs rest

theorem components_sep {s : UInt16} (hs : isSlash s = true) (rest : Str) :
    components (s :: rest) = [] :: components rest := components_cons (p := []) (by simp) hs rest

theorem moves_sep {s : UInt16} (hs : isSlash s = true) (rest : Str) :
    moves (s :: rest) = .stay :: moves rest := by
  rw [moves, components_sep hs]
  rfl

theorem moves_cons {p : Str} {s : UInt16} (h : ∀ x ∈ p, isSlash x = false)
    (hs : isSlash s = true) (rest : Str) : moves (p ++ s :: rest) = move p :: moves rest := by
  rw [moves, components_cons h hs]
  rfl

theorem components_append (w : Str) {s : UInt16} (hs : isSlash s = true) (rest : Str) :
    components (w ++ s :: rest) = components w ++ components rest :=
  List.splitOnP_append_cons w rest hs

/-- A separator at the end adds an empty component. -/
theorem components_trailing (w : Str) {sep : UInt16} (hsep : isSlash sep = true) :
    components (w ++ [sep]) = components w ++ [[]] := by
  have : components [] = [[]] := rfl
  rw [components_append w hsep, this]

/-- No component has a separator in it. -/
theorem noSlash_of_mem_components (w : Str) :
    ∀ p ∈ components w, ∀ x ∈ p, isSlash x = false := by
  induction w using pieces_induction isSlash with
  | last w h =>
    rw [components_last h]
    simpa using h
  | step p s rest h hs ih =>
    rw [components_cons h hs]
    intro q hq
    rcases List.mem_cons.mp hq with rfl | hq
    · exact h
    · exact ih q hq

theorem mem_of_mem_components {w p : Str} (hp : p ∈ components w) {x : UInt16} (hx : x ∈ p) :
    x ∈ w := by
  induction w using pieces_induction isSlash with
  | last w h =>
    rw [components_last h] at hp
    rwa [List.mem_singleton.mp hp] at hx
  | step q s rest h hs ih =>
    rw [components_cons h hs] at hp
    rcases List.mem_cons.mp hp with rfl | hp
    · exact List.mem_append_left _ hx
    · exact List.mem_append_right _ (List.mem_cons_of_mem s (ih hp))

/-- Every name a walk enters is a proper component. -/
theorem proper_of_mem_components {w p : Str} (hp : p ∈ components w) {q : Str}
    (h : move p = .name q) : Proper q := by
  obtain ⟨rfl, h₁, h₂, h₃⟩ := move_name h
  exact ⟨h₁, noSlash_of_mem_components w q hp, h₂, h₃⟩

/-- Components, each behind a separator. -/
def spell (sep : UInt16) (ps : List Str) : Str := ps.flatMap fun p => sep :: p

theorem spell_cons (sep : UInt16) (d : Str) (ds : List Str) :
    spell sep (d :: ds) = sep :: (d ++ spell sep ds) := rfl

theorem components_spell {sep : UInt16} (hsep : isSlash sep = true) {p : Str} {ps : List Str}
    (hp : ∀ q ∈ p :: ps, ∀ x ∈ q, isSlash x = false) : components (p ++ spell sep ps) = p :: ps := by
  induction ps generalizing p with
  | nil =>
    rw [spell, List.flatMap_nil, List.append_nil]
    exact components_last (hp p (by simp))
  | cons q ps ih =>
    have hq : ∀ r ∈ q :: ps, ∀ x ∈ r, isSlash x = false := fun r hr => hp r (by simp [hr])
    have hspell : spell sep (q :: ps) = sep :: (q ++ spell sep ps) := rfl
    rw [hspell, components_cons (hp p (by simp)) hsep, ih hq]

/-- What follows a volume: names, and a last separator or none. -/
def belowVol (sep : UInt16) (ds : List Str) (trailing : Bool) : Str :=
  spell sep ds ++ (if trailing then [sep] else [])

theorem components_below {sep : UInt16} (hsep : isSlash sep = true) {p : Str} {ds : List Str}
    {trailing : Bool} (hp : ∀ x ∈ p, isSlash x = false) (hds : ∀ d ∈ ds, ∀ x ∈ d, isSlash x = false) :
    components (p ++ belowVol sep ds trailing) = p :: ds ++ (if trailing then [[]] else []) := by
  have hall : ∀ q ∈ p :: ds, ∀ x ∈ q, isSlash x = false := by
    intro q hq
    rcases List.mem_cons.mp hq with rfl | hq
    · exact hp
    · exact hds q hq
  rw [belowVol, ← List.append_assoc]
  cases trailing with
  | false => simpa using components_spell hsep hall
  | true =>
    rw [if_pos rfl, if_pos rfl, components_trailing _ hsep, components_spell hsep hall]

theorem plain_below {sep : UInt16} (hsep : isSlash sep = true) {p : Str} {ps : List Str} {t : Bool}
    (hp : ∀ q ∈ p :: ps, Plain q) : Plain (p ++ belowVol sep ps t) := by
  intro x hx
  simp only [belowVol, List.mem_append] at hx
  rcases hx with hx | hx | hx
  · exact hp p (by simp) x hx
  · obtain ⟨q, hq, hx⟩ := List.mem_flatMap.mp hx
    rcases List.mem_cons.mp hx with rfl | hx
    · exact fun _ => hsep
    · exact hp q (by simp [hq]) x hx
  · cases t with
    | false => cases hx
    | true =>
      rw [List.mem_singleton.mp hx]
      exact fun _ => hsep

end ApeShim.Nt
