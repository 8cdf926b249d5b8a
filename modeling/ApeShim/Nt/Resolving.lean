import ApeShim.Lib.Resolve
import ApeShim.Nt.Realpath

/-!
`realpath` against the resolution of paths. The walk of `shim/realpath.c` keeps what is left of the
path and of the links in one buffer and asks for a directory by a flag; it comes to the place that
the path leads to.
-/

namespace ApeShim.Nt
open Walk Resolve

/-! ## Texts and paths -/

/-- A component that names something; a backslash is a character like any other here. -/
structure RpName (x : Str) : Prop where
  ne_nil : x ≠ []
  noSlash : slash ∉ x
  ne_dot : x ≠ [dot]
  ne_dotdot : x ≠ dotdot

/-- How a place below "/" or, if its root says so, below "//" is written. -/
def rpText (p : Place Bool Str) : Str :=
  if p.names = [] then (if p.root then [slash, slash] else [slash])
  else (if p.root then [slash] else []) ++ spell slash p.names.reverse

/-- A component behind a place. -/
def rpFull (p : Place Bool Str) (part : Str) : Str :=
  rpText p ++ ((if p.names = [] then [] else [slash]) ++ part)

/-- The moves of a text; two separators have nothing between them. -/
def rpMoves (w : Str) : List (Move Str) := (w.splitOn slash).map move

/-- The moves behind a root. -/
def rpBelow (w : Str) : List (Move Str) := if w = [] then [] else rpMoves w

/-- Exactly two separators are in front. -/
def rpRoot (w : Str) : Bool := w.tail.head? = some slash ∧ w.tail.tail.head? ≠ some slash

def rpPath (w : Str) : Route Bool Str :=
  if w.head? = some slash then ⟨some (rpRoot w), rpBelow (w.dropWhile (· = slash))⟩
  else ⟨none, rpMoves w⟩

/-- The moves behind a component. -/
def rpRest (rest : Str) : List (Move Str) := if rest = [] then [] else rpMoves rest.tail

theorem RpName.move {x : Str} (h : RpName x) : Nt.move x = .name x := by
  unfold Nt.move
  rw [if_neg (by simpa using ⟨h.ne_nil, h.ne_dot⟩), if_neg h.ne_dotdot]

section Texts

variable {t : FileTree Bool Str} {C : Place Bool Str → Prop} {p q : Place Bool Str} {n : Nat}
  {part rest w : Str}

theorem rpMoves_append (a b : Str) : rpMoves (a ++ slash :: b) = rpMoves a ++ rpMoves b := by
  rw [rpMoves, List.splitOn_append_cons_self, List.map_append]
  rfl

theorem rpMoves_slash (w : Str) : rpMoves (slash :: w) = .stay :: rpMoves w := rpMoves_append [] w

theorem rpMoves_part (h : slash ∉ part) : rpMoves part = [move part] := by
  rw [rpMoves, List.splitOn_eq_singleton h]
  rfl

theorem rpMoves_ne_nil (w : Str) : rpMoves w ≠ [] := by
  rw [rpMoves, ne_eq, List.map_eq_nil_iff]
  exact List.splitOn_ne_nil _ _

theorem rpMoves_split (hpart : slash ∉ part) (hrest : rest = [] ∨ rest.head? = some slash) :
    rpMoves (part ++ rest) = move part :: rpRest rest := by
  rcases hrest with rfl | hrest
  · rw [List.append_nil, rpMoves_part hpart]
    rfl
  · obtain ⟨r, rfl⟩ := List.head?_eq_some_iff.mp hrest
    rw [rpMoves_append, rpMoves_part hpart]
    rfl

/-- Separators in front only ask for a directory. -/
theorem resolves_behind (w : Str) :
    Resolves t C p (rpMoves w) n q ↔ Resolves t C p (rpMoves (w.dropWhile (· = slash))) n q := by
  induction w with
  | nil => rfl
  | cons c w ih =>
      by_cases hc : c = slash
      · rw [hc, rpMoves_slash, resolves_stay_of_ne_nil (rpMoves_ne_nil w), ih,
          List.dropWhile_cons_of_pos (by simp)]
      · rw [List.dropWhile_cons_of_neg (by simpa using hc)]

theorem resolves_rest (hrest : rest.head? = some slash) :
    Resolves t C p (rpRest rest) n q ↔
      Resolves t C p (rpMoves (rest.dropWhile (· = slash))) n q := by
  obtain ⟨r, rfl⟩ := List.head?_eq_some_iff.mp hrest
  have hdrop : (slash :: r).dropWhile (· = slash) = r.dropWhile (· = slash) :=
    List.dropWhile_cons_of_pos (by simp)
  rw [hdrop, ← resolves_behind]
  rfl

theorem rpRest_ne_nil (hrest : rest.head? = some slash) : rpRest rest ≠ [] := by
  obtain ⟨r, rfl⟩ := List.head?_eq_some_iff.mp hrest
  exact rpMoves_ne_nil r

/-- What is left behind a component that is passed over. -/
theorem resolves_stay_rest (hrest : rest = [] ∨ rest.head? = some slash) :
    Resolves t C p (.stay :: rpRest rest) n q ↔
      Resolves t C p (rpMoves (rest.dropWhile (· = slash))) n q := by
  rcases hrest with rfl | hrest
  · rfl
  · rw [resolves_stay_of_ne_nil (rpRest_ne_nil hrest), resolves_rest hrest]

/-- What is left in a directory needs no question for one. -/
theorem resolves_below_of_dir (h : t.Dir p) :
    Resolves t C p (rpBelow w) n q ↔ Resolves t C p (rpMoves w) n q := by
  rw [rpBelow]
  split
  · rename_i hnil
    rw [hnil]
    exact (resolves_stay_of_dir h).symm
  · rfl

theorem resolves_rest_of_dir (h : t.Dir p) (hrest : rest = [] ∨ rest.head? = some slash) :
    Resolves t C p (rpRest rest) n q ↔
      Resolves t C p (rpBelow (rest.dropWhile (· = slash))) n q := by
  rw [resolves_below_of_dir h, ← resolves_stay_rest hrest, resolves_stay_of_dir h]

/-- What `realpath` puts behind a link: separators follow only once. -/
def rpTail (w rest : Str) : Str :=
  if w.getLast? = some slash then rest.dropWhile (· = slash) else rest

/-- A link joined to what is left. -/
theorem resolves_join (hrest : rest = [] ∨ rest.head? = some slash) :
    Resolves t C p (rpMoves w ++ rpRest rest) n q ↔
      Resolves t C p (rpMoves (w ++ rpTail w rest)) n q := by
  by_cases hlast : w.getLast? = some slash
  · rw [rpTail, if_pos hlast]
    obtain ⟨u, rfl⟩ := List.getLast?_eq_some_iff.mp hlast
    have hend : rpMoves (u ++ [slash]) = rpMoves u ++ [.stay] := rpMoves_append u []
    have hjoin : u ++ [slash] ++ rest.dropWhile (· = slash) =
        u ++ slash :: rest.dropWhile (· = slash) := by simp
    rw [hend, hjoin, rpMoves_append, List.append_assoc]
    exact resolves_congr (by simp) (rpMoves_ne_nil _) (fun m k => resolves_stay_rest hrest) _
  · rw [rpTail, if_neg hlast]
    rcases hrest with rfl | hrest
    · rw [List.append_nil]
      exact iff_of_eq (by rw [rpRest, if_pos rfl, List.append_nil])
    · obtain ⟨r, rfl⟩ := List.head?_eq_some_iff.mp hrest
      rw [rpMoves_append]
      rfl

/-- Joined to a link from a root, it starts at the same root. -/
theorem rpRoot_join (hw : w.head? = some slash) : rpRoot (w ++ rpTail w rest) = rpRoot w := by
  obtain ⟨u, rfl⟩ := List.head?_eq_some_iff.mp hw
  have hhead : rpTail [slash] rest = rest.dropWhile (· = slash) := rfl
  cases u with
  | nil =>
      have := head_behind rest
      rw [hhead]
      simp [rpRoot, this]
  | cons c u =>
      cases u with
      | nil =>
          by_cases hc : c = slash
          · have := head_behind rest
            have htail : rpTail [slash, c] rest = rest.dropWhile (· = slash) := by
              rw [hc]
              rfl
            rw [htail]
            simp [rpRoot, this]
          · simp [rpRoot, hc]
      | cons d u => simp [rpRoot]

/-- Joined to a link from a root, it is below the root what the two are one after the other. -/
theorem resolves_join_root {r : Bool} (hw : w.head? = some slash)
    (hrest : rest = [] ∨ rest.head? = some slash) :
    Resolves t C ⟨r, []⟩ (rpBelow (w.dropWhile (· = slash)) ++ rpRest rest) n q ↔
      Resolves t C ⟨r, []⟩ (rpBelow ((w ++ rpTail w rest).dropWhile (· = slash))) n q := by
  have hroot : t.Dir ⟨r, []⟩ := t.root r
  by_cases hall : w.dropWhile (· = slash) = []
  · have hslash : ∀ c ∈ w, decide (c = slash) = true := by simpa using hall
    have hlast : w.getLast? = some slash := by
      obtain ⟨u, rfl⟩ := List.head?_eq_some_iff.mp hw
      rw [List.getLast?_eq_some_getLast (List.cons_ne_nil _ _)]
      exact congrArg some (by simpa using hslash _ (List.getLast_mem (List.cons_ne_nil _ _)))
    rw [rpTail, if_pos hlast, List.dropWhile_append_of_pos hslash, hall,
      resolves_below_of_dir hroot, ← resolves_behind, ← resolves_below_of_dir hroot]
    exact resolves_rest_of_dir hroot hrest
  · obtain ⟨front, hfront⟩ := List.dropWhile_suffix (l := w) (· = slash)
    have hlast : (w.dropWhile (· = slash)).getLast? = w.getLast? := by
      conv_rhs => rw [← hfront, getLast_append_ne hall]
    have htail : rpTail w rest = rpTail (w.dropWhile (· = slash)) rest := by
      rw [rpTail, rpTail, hlast]
    have hdrop : (w ++ rpTail w rest).dropWhile (· = slash) =
        w.dropWhile (· = slash) ++ rpTail w rest := by
      rw [List.dropWhile_append, if_neg (by simpa using hall)]
    rw [resolves_below_of_dir hroot, hdrop, htail, ← resolves_join hrest, rpBelow, if_neg hall]

/-! ## The output -/

theorem rpText_down (p : Place Bool Str) (x : Str) : rpText (p.down x) = rpFull p x := by
  obtain ⟨r, names⟩ := p
  cases names with
  | nil => cases r <;> simp [rpText, rpFull, Place.down, spell]
  | cons y names => cases r <;> simp [rpText, rpFull, Place.down, spell]

theorem rpText_ne_nil (p : Place Bool Str) : rpText p ≠ [] := by
  obtain ⟨r, names⟩ := p
  cases names with
  | nil => cases r <;> simp [rpText]
  | cons x names => cases r <;> simp [rpText, spell]

theorem head_rpText (p : Place Bool Str) : (rpText p).head? = some slash := by
  obtain ⟨r, names⟩ := p
  cases names with
  | nil => cases r <;> rfl
  | cons x names =>
      cases r with
      | true => rfl
      | false =>
          cases hrev : (x :: names).reverse with
          | nil => simp at hrev
          | cons y ys => simp [rpText, hrev, spell]

/-- A separator follows every place but a root. -/
theorem getLast_rpText (hnames : ∀ x ∈ p.names, RpName x) :
    (rpText p).getLast? = some slash ↔ p.names = [] := by
  obtain ⟨r, names⟩ := p
  cases names with
  | nil => cases r <;> simp [rpText]
  | cons x names =>
      have hx := hnames x List.mem_cons_self
      have hdown : rpText ⟨r, x :: names⟩ = rpFull ⟨r, names⟩ x := rpText_down ⟨r, names⟩ x
      rw [hdown, rpFull, getLast_append_ne (by simp [hx.ne_nil]), getLast_append_ne hx.ne_nil]
      refine iff_of_false (fun hlast => hx.noSlash (List.mem_of_getLast? hlast)) ?_
      exact List.cons_ne_nil x names

theorem full_rpText {s : Rp} (hout : s.output = rpText p) (hnames : ∀ x ∈ p.names, RpName x)
    (part : Str) : s.full part = rpFull p part := by
  have hlast := getLast_rpText hnames
  rw [Rp.full, rpFull, hout]
  by_cases hroot : p.names = []
  · rw [if_neg (fun h => h.2 (hlast.mpr hroot)), if_pos hroot]
  · rw [if_pos ⟨rpText_ne_nil p, fun h => hroot (hlast.mp h)⟩, if_neg hroot]

/-- Back to the last separator. -/
theorem back_slash (a : Str) {x : Str} (hx : slash ∉ x) :
    ((a ++ slash :: x).reverse.dropWhile (· ≠ slash)).reverse = a ++ [slash] := by
  have hrev : (a ++ slash :: x).reverse = x.reverse ++ slash :: a.reverse := by simp
  have hall : ∀ c ∈ x.reverse, decide (c ≠ slash) = true := by
    intro c hc
    refine decide_eq_true ?_
    rintro rfl
    exact hx (List.mem_reverse.mp hc)
  rw [hrev, List.dropWhile_append_of_pos hall, List.dropWhile_cons_of_neg (by simp)]
  simp

theorem trim_slash (a : Str) {x : Str} (hx : slash ∉ x) : trim (a ++ slash :: x) =
    if (a ++ [slash]).length > 1 ∧ ((a ++ [slash]).length > 2 ∨ (a ++ [slash]).head? ≠ some slash)
    then a else a ++ [slash] := by
  rw [trim, back_slash a hx, List.dropLast_concat]

theorem trim_rpText (hnames : ∀ x ∈ p.names, RpName x) : trim (rpText p) = rpText p.up := by
  obtain ⟨r, names⟩ := p
  cases names with
  | nil => cases r <;> decide
  | cons x names =>
      have hx : slash ∉ x := (hnames x List.mem_cons_self).noSlash
      have hdown : rpText ⟨r, x :: names⟩ = rpFull ⟨r, names⟩ x := rpText_down ⟨r, names⟩ x
      rw [hdown]
      cases names with
      | nil =>
          cases r with
          | false => exact trim_slash [] hx
          | true => exact trim_slash [slash] hx
      | cons y names =>
          have hy := List.length_pos_iff.mpr (hnames y (by simp)).ne_nil
          have hlong : 2 ≤ (rpText ⟨r, y :: names⟩).length := by
            have hup : rpText ⟨r, y :: names⟩ = rpFull ⟨r, names⟩ y := rpText_down ⟨r, names⟩ y
            have hpos := List.length_pos_iff.mpr (rpText_ne_nil ⟨r, names⟩)
            rw [hup, rpFull]
            simp only [List.length_append]
            omega
          have hlen : (rpText ⟨r, y :: names⟩ ++ [slash]).length > 2 := by
            rw [List.length_append, List.length_singleton]
            omega
          have hfull : rpFull ⟨r, y :: names⟩ x = rpText ⟨r, y :: names⟩ ++ slash :: x := rfl
          rw [hfull, trim_slash _ hx, if_pos ⟨by omega, Or.inl hlen⟩]
          rfl

theorem count_spell {ps : List Str} (hps : ∀ x ∈ ps, RpName x) :
    (spell slash ps).count slash = ps.length := by
  induction ps with
  | nil => rfl
  | cons x ps ih =>
      have hx : x.count slash = 0 := List.count_eq_zero.mpr (hps x List.mem_cons_self).noSlash
      have hrest := ih fun y hy => hps y (List.mem_cons_of_mem x hy)
      rw [spell_cons, List.count_cons_self, List.count_append, hx, hrest, List.length_cons,
        Nat.zero_add]

/-- The components in front of a share's files. -/
def Shared (p : Place Bool Str) : Prop := p.root = true ∧ p.names.length < 2

theorem uncPart_rpFull (hnames : ∀ x ∈ p.names, RpName x) (hpart : slash ∉ part) :
    uncPart (rpFull p part) = true ↔ Shared p := by
  obtain ⟨r, names⟩ := p
  have hcount : part.count slash = 0 := List.count_eq_zero.mpr hpart
  have hspell : (spell slash names.reverse).count slash = names.reverse.length :=
    count_spell fun x hx => hnames x (List.mem_reverse.mp hx)
  cases names with
  | nil =>
      cases r with
      | true => simp [uncPart, rpFull, rpText, Shared, hcount]
      | false =>
          cases part with
          | nil => simp [uncPart, rpFull, rpText, Shared]
          | cons c w =>
              have hc : c ≠ slash := fun h => hpart (h ▸ List.mem_cons_self)
              simp [uncPart, rpFull, rpText, Shared, hc]
  | cons x names =>
      obtain ⟨y, ys, hrev⟩ : ∃ y ys, (x :: names).reverse = y :: ys := by
        cases h : (x :: names).reverse with
        | nil => simp at h
        | cons y ys => exact ⟨y, ys, rfl⟩
      have hy : RpName y := hnames y (List.mem_reverse.mp (by rw [hrev]; exact List.mem_cons_self))
      have hlen : ys.length + 1 = (x :: names).length := by
        exact (congrArg List.length hrev).symm.trans List.length_reverse
      rw [hrev, spell_cons, List.count_cons_self, List.length_cons] at hspell
      cases r with
      | true =>
          have hfull : rpFull ⟨true, x :: names⟩ part =
              slash :: slash :: (y ++ spell slash ys ++ slash :: part) := by
            simp [rpFull, rpText, hrev, spell_cons]
          rw [hfull, Shared]
          simp only [uncPart, List.take_succ_cons, List.take_zero, decide_true, Bool.true_and,
            List.drop_succ_cons, List.drop_zero, List.count_append, List.count_cons_self, hcount,
            decide_eq_true_eq, true_and]
          rw [List.count_append] at hspell
          omega
      | false =>
          obtain ⟨c, w, rfl⟩ := List.exists_cons_of_ne_nil hy.ne_nil
          have hc : c ≠ slash := fun h => hy.noSlash (h ▸ List.mem_cons_self)
          have hfull : rpFull ⟨false, x :: names⟩ part =
              slash :: c :: (w ++ spell slash ys ++ slash :: part) := by
            simp [rpFull, rpText, hrev, spell_cons]
          rw [hfull, Shared]
          simp [uncPart, hc]

end Texts

/-! ## The system -/

/-- A place that may be asked about: it is there, and no more than one step from a share's files. -/
structure Standing (t : FileTree Bool Str) (p : Place Bool Str) : Prop where
  real : t.Real p
  names : ∀ x ∈ p.names, RpName x
  unshared : ¬ Shared p

/-- `readlink` tells what there is below "/" and "//". A server or a share alone is taken for a
directory, as it cannot be opened; what ".." comes to behind a file is left open. -/
structure Files.Reads (files : Files) (t : FileTree Bool Str) : Prop where
  share : ∀ names, names.length ≤ 2 → (∀ x ∈ names, RpName x) → t.Dir ⟨true, names⟩
  none : ∀ {p x}, Standing t p → RpName x → t.kind (p.down x) = none →
    ∃ e, files.readlink (rpFull p x) = .error e ∧ e ≠ .einval
  real : ∀ {p x}, Standing t p → RpName x → t.Real (p.down x) →
    files.readlink (rpFull p x) = .error .einval
  link : ∀ {p x l}, Standing t p → RpName x → t.kind (p.down x) = some (.link l) →
    ∃ w, files.readlink (rpFull p x) = .ok w ∧ w ≠ [] ∧ rpPath w = l
  dir : ∀ {p}, Standing t p → p.names ≠ [] → t.Dir p → files.readlink (rpFull p []) = .error .einval
  file : ∀ {p}, Standing t p → t.kind p = some .file →
    ∃ e, files.readlink (rpFull p []) = .error e ∧ e ≠ .einval
  up : ∀ {p}, Standing t p → p.names ≠ [] → ∃ e, files.readlink (rpFull p dotdot) = .error e

/-- Where `realpath` takes ".." even if it asks. -/
def Files.Climbs (files : Files) (p : Place Bool Str) : Prop :=
  p.names = [] ∨ Shared p ∨ files.readlink (rpFull p dotdot) = .error .einval

/-- Where ".." leads on if it is never asked about. -/
def anywhere (_ : Place Bool Str) : Prop := True

/-- What an answer says about moves from a place, with `cnt` links behind: it is where they lead, if
".." is always taken; and they are followed if ".." is taken where it is asked about. -/
def Answers (files : Files) (t : FileTree Bool Str) (p : Place Bool Str) (ms : List (Move Str))
    (cnt : Nat) (r : Except RpErr Str) : Prop :=
  (∀ out, r = .ok out →
    ∃ n q, Resolves t anywhere p ms n q ∧ cnt + n < symloopMax ∧ out = rpText q) ∧
  ∀ n q, Resolves t files.Climbs p ms n q → cnt + n < symloopMax →
    r = .ok (rpText q) ∨ r = .error .enametoolong

/-- The moves from one place come to those from another, over as many links. -/
def Passes (files : Files) (t : FileTree Bool Str) (p : Place Bool Str) (ms : List (Move Str))
    (cnt : Nat) (p' : Place Bool Str) (ms' : List (Move Str)) (cnt' : Nat) : Prop :=
  (∀ n q, Resolves t anywhere p' ms' n q →
    ∃ m, Resolves t anywhere p ms m q ∧ cnt + m = cnt' + n) ∧
  ∀ n q, Resolves t files.Climbs p ms n q →
    ∃ m, Resolves t files.Climbs p' ms' m q ∧ cnt + n = cnt' + m

section Answering

variable {files : Files} {t : FileTree Bool Str} {p p' : Place Bool Str} {ms ms' : List (Move Str)}
  {cnt cnt' : Nat} {r : Except RpErr Str}

theorem Passes.answers (h : Passes files t p ms cnt p' ms' cnt')
    (hr : Answers files t p' ms' cnt' r) : Answers files t p ms cnt r := by
  constructor
  · intro out hout
    obtain ⟨n, q, hres, hlt, htext⟩ := hr.1 out hout
    obtain ⟨m, hres, hcnt⟩ := h.1 n q hres
    exact ⟨m, q, hres, by omega, htext⟩
  · intro n q hres hlt
    obtain ⟨m, hres, hcnt⟩ := h.2 n q hres
    exact hr.2 m q hres (by omega)

theorem passes_of_iff (h : ∀ C n q, Resolves t C p ms n q ↔ Resolves t C p' ms' n q) :
    Passes files t p ms cnt p' ms' cnt :=
  ⟨fun n q hres => ⟨n, (h _ n q).mpr hres, rfl⟩, fun n q hres => ⟨n, (h _ n q).mp hres, rfl⟩⟩

theorem answers_done (h : cnt < symloopMax) : Answers files t p [] cnt (.ok (rpText p)) := by
  constructor
  · intro out hout
    exact ⟨0, p, .done, h, (Except.ok.inj hout).symm⟩
  · intro n q hres _
    obtain ⟨-, rfl⟩ := resolves_nil.mp hres
    exact Or.inl rfl

theorem answers_toolong : Answers files t p ms cnt (.error .enametoolong) :=
  ⟨fun _ hout => (by cases hout), fun _ _ _ _ => Or.inr rfl⟩

theorem answers_error {e : RpErr}
    (h : ∀ n q, Resolves t files.Climbs p ms n q → symloopMax ≤ cnt + n) :
    Answers files t p ms cnt (.error e) :=
  ⟨fun _ hout => (by cases hout), fun n q hres hlt => absurd (h n q hres) (by omega)⟩

end Answering

/-! ## A turn -/

/-- The state of the walk at a place. What is not known to be a directory is asked about, and a root
never is. -/
structure Rp.At (t : FileTree Bool Str) (s : Rp) (p : Place Bool Str) : Prop where
  output : s.output = rpText p
  real : t.Real p
  names : ∀ x ∈ p.names, RpName x
  nup : s.nup = 0
  cnt : s.cnt < symloopMax
  known : s.checkDir = false → s.stack ≠ [] → t.Dir p
  named : s.checkDir = true → p.names ≠ []

/-- The moves left at a place. -/
def Rp.pending (s : Rp) : List (Move Str) :=
  if s.stack = [] then (if s.checkDir then [.stay] else []) else rpMoves s.stack

/-- The moves left, and where from: a separator in front starts anew. -/
inductive Rp.Left (t : FileTree Bool Str) (s : Rp) : Place Bool Str → List (Move Str) → Prop
  | root : s.stack.head? = some slash → s.cnt < symloopMax →
      Left t s ⟨rpRoot s.stack, []⟩ (rpBelow (s.stack.dropWhile (· = slash)))
  | place {p} : s.stack.head? ≠ some slash → s.At t p → Left t s p s.pending

/-- What a turn has to come to, for the moves left before it. -/
inductive Turned (files : Files) (t : FileTree Bool Str) (s : Rp) (p : Place Bool Str)
    (ms : List (Move Str)) : Turn → Prop
  | next {s' p' ms'} : s'.behind.Left t p' ms' → Passes files t p ms s.cnt p' ms' s'.cnt →
      Turned files t s p ms (.next s')
  | restart {s' p' ms'} : s'.Left t p' ms' → Passes files t p ms s.cnt p' ms' s'.cnt →
      Turned files t s p ms (.restart s')
  | done : Answers files t p ms s.cnt (.ok s.output) → Turned files t s p ms .done
  | fail {e} : Answers files t p ms s.cnt (.error e) → Turned files t s p ms (.fail e)

section Turns

variable {env : Env} {files : Files} {t : FileTree Bool Str} {p : Place Bool Str} {s : Rp}
  {part rest : Str} {ms : List (Move Str)}

theorem Rp.pending_split (hs : s.stack = part ++ rest) (hne : part ≠ []) (hpart : slash ∉ part)
    (hrest : rest = [] ∨ rest.head? = some slash) : s.pending = move part :: rpRest rest := by
  rw [Rp.pending, hs, if_neg (by simp [hne]), rpMoves_split hpart hrest]

theorem Rp.pending_below (h : s.checkDir = false) : s.pending = rpBelow s.stack := by
  rw [Rp.pending, rpBelow, h]
  rfl

theorem Rp.resolves_pending {C : Place Bool Str → Prop} {n : Nat} {q : Place Bool Str}
    (h : s.checkDir = false → t.Dir p) :
    Resolves t C p s.pending n q ↔ Resolves t C p (rpMoves s.stack) n q := by
  cases hc : s.checkDir with
  | false => rw [Rp.pending_below hc, resolves_below_of_dir (h hc)]
  | true =>
      rw [Rp.pending, hc]
      split
      · rename_i hnil
        rw [hnil]
        rfl
      · rfl

/-- What a turn makes of the answer to `readlink`. -/
def Env.answered (env : Env) (s : Rp) (part full rest : Str) : Except RpErr Str → Turn
  | .error .einval => s.skip part full rest
  | .error e => .fail e
  | .ok link => env.follow s link rest

theorem answered_error {full : Str} {e : RpErr} (h : e ≠ .einval) :
    env.answered s part full rest (.error e) = .fail e := by
  cases e with
  | einval => exact absurd rfl h
  | enametoolong => rfl
  | enoent => rfl
  | eloop => rfl
  | other => rfl

/-- Behind the guards, a component is passed over or asked about. -/
theorem Rp.At.component (env : Env) (files : Files) (hat : s.At t p) (hpart : slash ∉ part)
    (rest : Str) (hdone : ¬ (part = [] ∧ s.checkDir = false)) (hdot : part ≠ [dot]) :
    env.component files s part rest = .fail .enametoolong ∨
    ((part = dotdot ∧ s.checkDir = false) ∨ Shared p) ∧
      env.component files s part rest = s.skip part (rpFull p part) rest ∨
    ¬ ((part = dotdot ∧ s.checkDir = false) ∨ Shared p) ∧
      env.component files s part rest =
        env.answered s part (rpFull p part) rest (files.readlink (rpFull p part)) := by
  have hfull := full_rpText hat.output hat.names part
  have hunc := uncPart_rpFull hat.names hpart
  have hstep := Env.component.eq_1 env files s part rest
  rw [if_neg hdone, if_neg hdot] at hstep
  split at hstep
  · exact Or.inl hstep
  split at hstep
  · exact Or.inl hstep
  -- the output is not empty, so ".." always has something to cancel
  have hup : ¬ (part = dotdot ∧ width8 s.output ≤ 3 * s.nup) := by
    rintro ⟨-, hle⟩
    have hlen := length_le_width8 s.output
    have hpos := List.length_pos_iff.mpr (rpText_ne_nil p)
    rw [hat.nup] at hle
    rw [hat.output] at hlen hle
    omega
  rw [if_neg hup, hfull] at hstep
  split at hstep
  · rename_i hskip
    exact Or.inr (Or.inl ⟨hskip.imp_right hunc.mp, hstep⟩)
  · rename_i hask
    exact Or.inr (Or.inr ⟨fun h => hask (h.imp_right hunc.mpr), hstep⟩)

/-- Nothing is left; a separator at the end asks for a directory. -/
theorem turned_nil (hreads : files.Reads t) (hat : s.At t p) (hs : s.stack = []) :
    Turned files t s p s.pending (env.component files s [] []) := by
  cases hc : s.checkDir with
  | false =>
      have hdone : env.component files s [] [] = .done := if_pos ⟨rfl, hc⟩
      have hpending : s.pending = [] := by rw [Rp.pending_below hc, hs]; rfl
      rw [hdone, hpending]
      exact .done (by rw [hat.output]; exact answers_done hat.cnt)
  | true =>
      have hpending : s.pending = [.stay] := by rw [Rp.pending, if_pos hs, if_pos hc]
      have hskip : t.Dir p → Turned files t s p s.pending (s.skip [] (rpFull p []) []) := by
        intro hdir
        have hnext : Rp.At t { s with stack := [], checkDir := false } p :=
          { hat with known := fun _ hne => absurd rfl hne, named := fun h => by cases h }
        refine .next (.place (head_behind _) hnext) (passes_of_iff fun C n q => ?_)
        rw [hpending]
        exact resolves_stay_of_dir hdir
      have hdone : ¬ (([] : Str) = [] ∧ s.checkDir = false) := fun h => by rw [hc] at h; cases h.2
      rcases hat.component env files (by simp) [] hdone (by simp) with he | ⟨hskipped, he⟩ |
        ⟨hask, he⟩
      · rw [he]
        exact .fail answers_toolong
      · have hshared : Shared p := hskipped.resolve_left fun h => absurd h.1 (by decide)
        rw [he]
        obtain ⟨r, names⟩ := p
        obtain rfl : r = true := hshared.1
        exact hskip (hreads.share names (Nat.le_of_lt hshared.2) hat.names)
      · have hstand : Standing t p := ⟨hat.real, hat.names, fun h => hask (Or.inr h)⟩
        rw [he]
        rcases hat.real with hdir | hfile
        · rw [hreads.dir hstand (hat.named hc) hdir]
          exact hskip hdir
        · obtain ⟨e, hread, hne⟩ := hreads.file hstand hfile
          rw [hread, answered_error hne]
          refine .fail (answers_error fun n q hres => ?_)
          rw [hpending] at hres
          cases hfile.symm.trans ((resolves_stay.mp hres).1 rfl)

/-- A dot is passed over, and what was asked for is still. -/
theorem turned_dot (hat : s.At t p) (hs : s.stack = [dot] ++ rest)
    (hrest : rest = [] ∨ rest.head? = some slash) :
    Turned files t s p s.pending (env.component files s [dot] rest) := by
  have hstep : env.component files s [dot] rest = .next { s with stack := rest } := by
    rw [Env.component, if_neg (by simp), if_pos rfl]
  have hdir : s.checkDir = false → t.Dir p := fun hc => hat.known hc (by simp [hs])
  have hpending : s.pending = .stay :: rpRest rest :=
    Rp.pending_split hs (by simp) (by decide) hrest
  rw [hstep]
  refine .next (.place (head_behind _) { hat with known := fun hc _ => hdir hc })
    (passes_of_iff fun C n q => ?_)
  rw [hpending, resolves_stay_rest hrest]
  exact (Rp.resolves_pending (s := ({ s with stack := rest } : Rp).behind) hdir).symm

/-- Two dots go up. -/
theorem turned_dotdot (hreads : files.Reads t) (hat : s.At t p) (hs : s.stack = dotdot ++ rest)
    (hrest : rest = [] ∨ rest.head? = some slash) :
    Turned files t s p s.pending (env.component files s dotdot rest) := by
  have hpending : s.pending = .up :: rpRest rest :=
    Rp.pending_split hs (by decide) (by decide) hrest
  have hup : t.Dir p.up := hat.real.up_dir
  have hskip : Turned files t s p s.pending (s.skip dotdot (rpFull p dotdot) rest) := by
    have hstep : s.skip dotdot (rpFull p dotdot) rest =
        .next { s with output := trim s.output, stack := rest, checkDir := false } := if_pos rfl
    have hnext :
        Rp.At t { s with output := trim s.output, stack := rest, checkDir := false } p.up :=
      { output := by rw [hat.output]; exact trim_rpText hat.names
        real := hup.real
        names := fun x hx => hat.names x (List.mem_of_mem_tail hx)
        nup := hat.nup
        cnt := hat.cnt
        known := fun _ _ => hup
        named := fun h => by cases h }
    have hiff : ∀ C n q, Resolves t C p.up (rpRest rest) n q ↔ Resolves t C p.up
        (rpBelow (rest.dropWhile (· = slash))) n q := fun C n q => resolves_rest_of_dir hup hrest
    rw [hstep, hpending]
    refine .next (.place (head_behind _) { hnext with known := fun _ _ => hup }) ⟨?_, ?_⟩
    · intro n q hres
      rw [Rp.pending_below rfl] at hres
      exact ⟨n, .up trivial ((hiff _ n q).mpr hres), rfl⟩
    · intro n q hres
      refine ⟨n, ?_, rfl⟩
      rw [Rp.pending_below rfl]
      exact (hiff _ n q).mp (resolves_up.mp hres).2
  have hdone : ¬ (dotdot = [] ∧ s.checkDir = false) := fun h => absurd h.1 (by decide)
  rcases hat.component env files (show slash ∉ dotdot by decide) rest hdone (by decide) with he |
    ⟨-, he⟩ | ⟨hask, he⟩
  · rw [he]
    exact .fail answers_toolong
  · rw [he]
    exact hskip
  · have hc : s.checkDir = true := by
      cases hc : s.checkDir with
      | true => rfl
      | false => exact absurd (Or.inl ⟨rfl, hc⟩) hask
    have hnamed := hat.named hc
    have hshared : ¬ Shared p := fun h => hask (Or.inr h)
    obtain ⟨e, hread⟩ := hreads.up ⟨hat.real, hat.names, hshared⟩ hnamed
    rw [he, hread]
    by_cases heinval : e = .einval
    · rw [heinval]
      exact hskip
    · rw [answered_error heinval]
      refine .fail (answers_error fun n q hres => ?_)
      rw [hpending] at hres
      rcases (resolves_up.mp hres).1 with hnil | hsh | hclimb
      · exact absurd hnil hnamed
      · exact absurd hsh hshared
      · cases hread.symm.trans hclimb
        exact absurd rfl heinval

/-- A name that is no link is gone down to. -/
theorem turned_down (hat : s.At t p) (hpart : RpName part) (hs : s.stack = part ++ rest)
    (hrest : rest = [] ∨ rest.head? = some slash) (hreal : t.Real (p.down part)) :
    Turned files t s p s.pending (s.skip part (rpFull p part) rest) := by
  have hpending : s.pending = move part :: rpRest rest :=
    Rp.pending_split hs hpart.ne_nil hpart.noSlash hrest
  have hstep : s.skip part (rpFull p part) rest = .next { s with
      output := rpFull p part, stack := rest, checkDir := rest ≠ [] } := by
    rw [Rp.skip, if_neg hpart.ne_dotdot, if_neg hpart.ne_nil]
  have hnext :
      Rp.At t (Rp.behind ⟨rpFull p part, rest, rest ≠ [], s.nup, s.cnt⟩) (p.down part) := by
    refine
      { output := (rpText_down p part).symm
        real := hreal
        names := ?_
        nup := hat.nup
        cnt := hat.cnt
        known := ?_
        named := fun _ => List.cons_ne_nil _ _ }
    · intro x hx
      rcases List.mem_cons.mp hx with rfl | hx
      · exact hpart
      · exact hat.names x hx
    · intro hc hne
      have hnil : rest = [] := by simpa [Rp.behind] using hc
      rw [hnil] at hne
      exact absurd rfl hne
  rw [hstep, hpending, hpart.move]
  refine .next (.place (head_behind rest) hnext) (passes_of_iff fun C n q => ?_)
  rw [resolves_name hreal]
  rcases hrest with rfl | hrest
  · rfl
  · have hne : rest ≠ [] := by
      rintro rfl
      cases hrest
    have hc : (decide (rest ≠ []) = false) → t.Dir (p.down part) := fun h => by simp [hne] at h
    rw [resolves_rest hrest]
    exact (Rp.resolves_pending (s := Rp.behind ⟨rpFull p part, rest, rest ≠ [], s.nup, s.cnt⟩)
      hc).symm

/-- A link is put in front of what is left. -/
theorem turned_link (hat : s.At t p) (hpart : RpName part) (hs : s.stack = part ++ rest)
    (hrest : rest = [] ∨ rest.head? = some slash) {w : Str} (hw : w ≠ [])
    (hlink : t.kind (p.down part) = some (.link (rpPath w))) :
    Turned files t s p s.pending (env.follow s w rest) := by
  have hpending : s.pending = .name part :: rpRest rest := by
    rw [Rp.pending_split hs hpart.ne_nil hpart.noSlash hrest, hpart.move]
  have hdir : t.Dir p := t.parent p part (by rw [hlink]; exact Option.some_ne_none _)
  have hstep := Env.follow.eq_1 env s w rest
  rw [if_neg hw] at hstep
  split at hstep
  · rw [hstep]
    exact .fail answers_toolong
  split at hstep
  · rename_i hcnt
    rw [hstep, hpending]
    refine .fail (answers_error fun n q hres => ?_)
    obtain ⟨m, rfl, -⟩ := (resolves_link hlink).mp hres
    omega
  · rename_i hcnt
    have hlt : s.cnt + 1 < symloopMax := by
      have := hat.cnt
      omega
    have hjoin : ∀ {p' ms'}, (∀ C n q, Resolves t C (p.from (rpPath w))
          ((rpPath w).moves ++ rpRest rest) n q ↔ Resolves t C p' ms' n q) →
        Passes files t p s.pending s.cnt p' ms' (s.cnt + 1) := by
      intro p' ms' hiff
      rw [hpending]
      constructor
      · intro n q hres
        exact ⟨n + 1, (resolves_link hlink).mpr ⟨n, rfl, (hiff _ n q).mpr hres⟩, by omega⟩
      · intro n q hres
        obtain ⟨m, rfl, hrest⟩ := (resolves_link hlink).mp hres
        exact ⟨m, (hiff _ m q).mp hrest, by omega⟩
    rw [hstep]
    change Turned files t s p s.pending
      (.restart { s with stack := w ++ rpTail w rest, cnt := s.cnt + 1 })
    have hhead : (w ++ rpTail w rest).head? = w.head? := by
      obtain ⟨c, u, rfl⟩ := List.exists_cons_of_ne_nil hw
      rfl
    by_cases habs : w.head? = some slash
    · refine .restart (.root (hhead.trans habs) hlt) (hjoin fun C n q => ?_)
      have hfrom : p.from (rpPath w) = ⟨rpRoot w, []⟩ := by
        rw [Place.from, rpPath, if_pos habs]
        rfl
      have hmoves : (rpPath w).moves = rpBelow (w.dropWhile (· = slash)) := by
        rw [rpPath, if_pos habs]
      rw [hfrom, hmoves, resolves_join_root habs hrest]
      show _ ↔ Resolves t C ⟨rpRoot (w ++ rpTail w rest), []⟩ _ n q
      rw [rpRoot_join habs]
    · have hnext : Rp.At t { s with stack := w ++ rpTail w rest, cnt := s.cnt + 1 } p :=
        { hat with cnt := hlt, known := fun _ _ => hdir }
      have hfrom : p.from (rpPath w) = p := by
        rw [Place.from, rpPath, if_neg habs]
        rfl
      have hmoves : (rpPath w).moves = rpMoves w := by rw [rpPath, if_neg habs]
      refine .restart (.place (fun h => habs (hhead.symm.trans h)) hnext) (hjoin fun C n q => ?_)
      rw [hfrom, hmoves, resolves_join hrest]
      exact (Rp.resolves_pending
        (s := { s with stack := w ++ rpTail w rest, cnt := s.cnt + 1 }) fun _ => hdir).symm

/-- A name leads down, or where its link leads. -/
theorem turned_name (hreads : files.Reads t) (hat : s.At t p) (hpart : RpName part)
    (hs : s.stack = part ++ rest) (hrest : rest = [] ∨ rest.head? = some slash) :
    Turned files t s p s.pending (env.component files s part rest) := by
  have hpending : s.pending = .name part :: rpRest rest := by
    rw [Rp.pending_split hs hpart.ne_nil hpart.noSlash hrest, hpart.move]
  rcases hat.component env files hpart.noSlash rest (fun h => hpart.ne_nil h.1) hpart.ne_dot with
    he | ⟨hskipped, he⟩ | ⟨hask, he⟩
  · rw [he]
    exact .fail answers_toolong
  · have hshared : Shared p := hskipped.resolve_left fun h => hpart.ne_dotdot h.1
    have hreal : t.Real (p.down part) := by
      obtain ⟨r, names⟩ := p
      obtain rfl : r = true := hshared.1
      refine (hreads.share (part :: names) hshared.2 fun x hx => ?_).real
      rcases List.mem_cons.mp hx with rfl | hx
      · exact hpart
      · exact hat.names x hx
    rw [he]
    exact turned_down hat hpart hs hrest hreal
  · have hstand : Standing t p := ⟨hat.real, hat.names, fun h => hask (Or.inr h)⟩
    rw [he]
    have hthere : t.Real (p.down part) → Turned files t s p s.pending
        (env.answered s part (rpFull p part) rest (files.readlink (rpFull p part))) := by
      intro hreal
      rw [hreads.real hstand hpart hreal]
      exact turned_down hat hpart hs hrest hreal
    cases hkind : t.kind (p.down part) with
    | none =>
        obtain ⟨e, hread, hne⟩ := hreads.none hstand hpart hkind
        rw [hread, answered_error hne, hpending]
        exact .fail (answers_error fun n q hres => absurd hres (not_resolves_name hkind))
    | some k =>
        cases k with
        | dir => exact hthere (Or.inl hkind)
        | file => exact hthere (Or.inr hkind)
        | link l =>
            obtain ⟨w, hread, hw, rfl⟩ := hreads.link hstand hpart hkind
            rw [hread]
            exact turned_link hat hpart hs hrest hw hkind

/-- Any component. -/
theorem turned_component (hreads : files.Reads t) (hat : s.At t p) (hs : s.stack = part ++ rest)
    (hpart : slash ∉ part) (hrest : rest = [] ∨ rest.head? = some slash)
    (hempty : part = [] → rest = []) :
    Turned files t s p s.pending (env.component files s part rest) := by
  by_cases hnil : part = []
  · obtain rfl := hempty hnil
    rw [hnil]
    exact turned_nil hreads hat (by rw [hs, hnil]; rfl)
  by_cases hdot : part = [dot]
  · rw [hdot] at hs ⊢
    exact turned_dot hat hs hrest
  by_cases hdotdot : part = dotdot
  · rw [hdotdot] at hs ⊢
    exact turned_dotdot hreads hat hs hrest
  exact turned_name hreads hat ⟨hnil, hpart, hdot, hdotdot⟩ hs hrest

/-- **Every turn** comes nearer to where what is left leads. -/
theorem turned (hreads : files.Reads t) (h : s.Left t p ms) :
    Turned files t s p ms (env.turn files s) := by
  cases h with
  | root hhead hcnt =>
      obtain ⟨w, hw⟩ := List.head?_eq_some_iff.mp hhead
      have hdrop : s.stack.dropWhile (· = slash) = w.dropWhile (· = slash) := by
        rw [hw, List.dropWhile_cons_of_pos (by simp)]
      have hturn : env.turn files s =
          .next ⟨rpText ⟨rpRoot s.stack, []⟩, w, false, 0, s.cnt⟩ := by
        rw [Env.turn, if_pos hhead, hw]
        by_cases hroot : w.head? = some slash ∧ w.tail.head? ≠ some slash <;>
          simp [rpText, rpRoot, hroot]
      have hat : Rp.At t (Rp.behind ⟨rpText ⟨rpRoot s.stack, []⟩, w, false, 0, s.cnt⟩)
          ⟨rpRoot s.stack, []⟩ :=
        { output := rfl
          real := FileTree.Dir.real (t.root _)
          names := fun x hx => absurd hx List.not_mem_nil
          nup := rfl
          cnt := hcnt
          known := fun _ _ => t.root _
          named := fun h => by cases h }
      rw [hturn, hdrop]
      refine .next (.place (head_behind w) hat) (passes_of_iff fun C n q => ?_)
      rw [Rp.pending_below rfl]
      rfl
  | place hhead hat =>
      obtain ⟨hs, hrest, hempty⟩ := stack_split hhead
      have hpart : slash ∉ s.stack.takeWhile (· ≠ slash) := by
        intro hmem
        simpa using List.mem_takeWhile_imp hmem
      rw [Env.turn, if_neg hhead]
      exact turned_component hreads hat hs hpart hrest hempty

/-- **The walk** comes to where what is left leads. -/
theorem walk_answers (hreads : files.Reads t) (fuel : Nat) (h : s.Left t p ms)
    {r : Except RpErr Rp} (hwalk : env.walk files fuel s = some r) :
    Answers files t p ms s.cnt (r.map Rp.output) := by
  induction fuel generalizing s p ms with
  | zero => cases hwalk
  | succ fuel ih =>
      have hturned : Turned files t s p ms (env.turn files s) := turned hreads h
      rw [Env.walk] at hwalk
      generalize env.turn files s = turn at hturned hwalk
      cases hturned with
      | next hleft hpass => exact hpass.answers (ih (s := Rp.behind _) hleft hwalk)
      | restart hleft hpass => exact hpass.answers (ih hleft hwalk)
      | done hanswers =>
          cases hwalk
          exact hanswers
      | fail hanswers =>
          cases hwalk
          exact hanswers

end Turns

/-! ## The whole path -/

/-- A path of the program itself, which is not looked at. -/
def InZip (o : Str) : Prop := o.take 4 = zipMark ∧ (o.length = 4 ∨ o.getD 4 0 = slash)

instance (o : Str) : Decidable (InZip o) :=
  inferInstanceAs (Decidable (o.take 4 = zipMark ∧ (o.length = 4 ∨ o.getD 4 0 = slash)))

theorem joinCwd_head {env : Env} {files : Files} {u o : Str}
    (hcwd : ∀ cwd, files.getcwd = .ok cwd → cwd.head? = some slash)
    (h : env.joinCwd files u = .ok o) : o.head? = some slash := by
  unfold Env.joinCwd at h
  split at h
  · rename_i hu
    exact (Except.ok.inj h) ▸ hu
  · cases hget : files.getcwd with
    | error e =>
        rw [hget] at h
        cases h
    | ok cwd =>
        rw [hget] at h
        obtain ⟨w, rfl⟩ := List.head?_eq_some_iff.mp (hcwd cwd hget)
        have hdir : ((if (slash :: w).getLast? = some slash then (slash :: w).dropLast
            else slash :: w) ++ slash :: u).head? = some slash := by
          split
          · cases w <;> rfl
          · rfl
        simp only [bind, Except.bind, pure, Except.pure, throw, throwThe, MonadExceptOf.throw] at h
        generalize (if (slash :: w).getLast? = some slash then (slash :: w).dropLast
          else slash :: w) = cwd at h hdir
        split at h
        · cases h
        · exact (Except.ok.inj h) ▸ hdir

/-- **`realpath` is path resolution.** -/
theorem realpath_resolves {env : Env} {files : Files} {roots : Roots} {t : FileTree Bool Str}
    {filename o : Str} (hreads : files.Reads t)
    (hcwd : ∀ cwd, files.getcwd = .ok cwd → cwd.head? = some slash)
    (ho : env.openPath roots filename >>= env.joinCwd files = .ok o) (hzip : ¬ InZip o) :
    (∀ out, env.realpath files roots filename = some (.ok out) →
      ∃ n q, Resolves t anywhere ⟨rpRoot o, []⟩ (rpPath o).moves n q ∧ n < symloopMax ∧ t.Real q ∧
        out = rpText q) ∧
    ∀ n q, Resolves t files.Climbs ⟨rpRoot o, []⟩ (rpPath o).moves n q → n < symloopMax →
      env.realpath files roots filename = some (.ok (rpText q)) ∨
        env.realpath files roots filename = some (.error .enametoolong) := by
  have hhead : o.head? = some slash := by
    cases hopen : env.openPath roots filename with
    | error e =>
        rw [hopen] at ho
        cases ho
    | ok u =>
        rw [hopen] at ho
        exact joinCwd_head hcwd ho
  have hmoves : (rpPath o).moves = rpBelow (o.dropWhile (· = slash)) := by rw [rpPath, if_pos hhead]
  have hne : o ≠ [] := by
    rintro rfl
    cases hhead
  obtain ⟨r, hr, hanswers⟩ : ∃ r, env.realpath files roots filename = some r ∧
      Answers files t ⟨rpRoot o, []⟩ (rpPath o).moves 0 r := by
    have hsome : (env.realpath files roots filename).isSome = true :=
      realpath_isSome roots filename
    obtain ⟨r, hr⟩ := Option.isSome_iff_exists.mp hsome
    refine ⟨r, hr, ?_⟩
    rw [Env.realpath, ho] at hr
    simp only [if_neg hne] at hr
    split at hr
    · cases hr
      exact answers_toolong
    · rw [InZip] at hzip
      rw [if_neg hzip] at hr
      obtain ⟨e, hwalk, hclose⟩ := Option.map_eq_some_iff.mp hr
      have hanswers := walk_answers hreads env.fuel
        (.root (s := ⟨[], o, false, 0, 0⟩) hhead (show 0 < symloopMax by decide)) hwalk
      rw [hmoves]
      cases e with
      | error e =>
          cases hclose
          exact hanswers
      | ok s =>
          obtain ⟨n, q, -, -, htext⟩ := hanswers.1 s.output rfl
          have hout : s.output.head? = some slash := by
            rw [htext]
            exact head_rpText q
          have hanswer : r = .ok s.output := by
            rw [← hclose]
            exact if_pos hout
          rw [hanswer]
          exact hanswers
  rw [hr]
  constructor
  · rintro out hout
    cases hout
    obtain ⟨n, q, hres, hlt, htext⟩ := hanswers.1 out rfl
    exact ⟨n, q, hres, by omega, hres.real (FileTree.Dir.real (t.root _)), htext⟩
  · intro n q hres hlt
    exact (hanswers.2 n q hres (by omega)).imp (congrArg some) (congrArg some)

/-- Nothing but a link to a share. -/
def linkedTree : FileTree Bool Str where
  kind p := match p.root, p.names with
    | _, [] => some .dir
    | true, [_] => some .dir
    | true, [_, _] => some .dir
    | false, [x] => if x = ascii ['l'] then some (.link (rpPath (ascii ['/', '/', 's', '/', 'n'])))
        else none
    | _, _ => none
  root r := by cases r <;> rfl
  parent p x h := by
    obtain ⟨r, names⟩ := p
    cases r with
    | false =>
        rcases names with _ | ⟨y, _ | ⟨z, names⟩⟩
        · rfl
        · exact (h rfl).elim
        · exact (h rfl).elim
    | true =>
        rcases names with _ | ⟨y, _ | ⟨z, names⟩⟩
        · rfl
        · rfl
        · exact (h rfl).elim

def linkedFiles : Files where
  readlink w :=
    if w = ascii ['/', 'l'] then .ok (ascii ['/', '/', 's', '/', 'n'])
    else if w.take 2 = [slash, slash] ∧ w.getLast? = some slash then .error .einval
    else .error .enoent
  getcwd := .ok [slash]

theorem standing_linked {p : Place Bool Str} (h : Standing linkedTree p) :
    p = ⟨false, []⟩ ∨ ∃ n s, p = ⟨true, [n, s]⟩ := by
  obtain ⟨r, names⟩ := p
  have hreal := h.real
  cases r with
  | false =>
      rcases names with _ | ⟨x, _ | ⟨y, names⟩⟩
      · exact Or.inl rfl
      · by_cases hx : x = ascii ['l'] <;> simp [FileTree.Real, linkedTree, hx] at hreal
      · simp [FileTree.Real, linkedTree] at hreal
  | true =>
      rcases names with _ | ⟨x, _ | ⟨y, _ | ⟨z, names⟩⟩⟩
      · exact absurd ⟨rfl, Nat.zero_lt_two⟩ h.unshared
      · exact absurd ⟨rfl, Nat.one_lt_two⟩ h.unshared
      · exact Or.inr ⟨x, y, rfl⟩
      · simp [FileTree.Real, linkedTree] at hreal

theorem linkedFiles_link : linkedFiles.readlink (ascii ['/', 'l']) =
    .ok (ascii ['/', '/', 's', '/', 'n']) := rfl

theorem linkedFiles_enoent {w : Str} (h : w ≠ ascii ['/', 'l']) (hlast : w.getLast? ≠ some slash) :
    linkedFiles.readlink w = .error .enoent := by
  show (if _ then _ else _) = _
  rw [if_neg h, if_neg fun hw => hlast hw.2]

theorem linkedFiles_einval (w : Str) :
    linkedFiles.readlink (slash :: slash :: (w ++ [slash])) = .error .einval := by
  have hlast : (slash :: slash :: (w ++ [slash])).getLast? = some slash :=
    List.getLast?_concat (l := slash :: slash :: w)
  exact if_pos ⟨rfl, hlast⟩

theorem linkedFiles_share (n s part : Str) : rpFull ⟨true, [n, s]⟩ part =
    slash :: slash :: (s ++ slash :: n ++ slash :: part) := by
  simp [rpFull, rpText, spell]

theorem linkedFiles_reads : linkedFiles.Reads linkedTree where
  share names hlen _ := by
    rcases names with _ | ⟨x, _ | ⟨y, _ | ⟨z, names⟩⟩⟩
    · rfl
    · rfl
    · rfl
    · simp at hlen
  none {p x} hp hx hkind := by
    refine ⟨.enoent, linkedFiles_enoent ?_ ?_, by decide⟩
    · rcases standing_linked hp with rfl | ⟨n, s, rfl⟩
      · intro hl
        have hx : x = ascii ['l'] := (List.cons.inj hl).2
        simp [Place.down, linkedTree, hx] at hkind
      · rw [linkedFiles_share]
        intro hl
        exact absurd (List.cons.inj (List.cons.inj hl).2).1 (by decide)
    · rw [rpFull, getLast_append_ne (by simp [hx.ne_nil]), getLast_append_ne hx.ne_nil]
      exact fun hlast => hx.noSlash (List.mem_of_getLast? hlast)
  real {p x} hp hx hreal := by
    rcases standing_linked hp with rfl | ⟨n, s, rfl⟩
    · by_cases hx : x = ascii ['l'] <;> simp [FileTree.Real, Place.down, linkedTree, hx] at hreal
    · simp [FileTree.Real, Place.down, linkedTree] at hreal
  link {p x l} hp hx hkind := by
    rcases standing_linked hp with rfl | ⟨n, s, rfl⟩
    · by_cases hl : x = ascii ['l']
      · rw [hl] at hkind ⊢
        exact ⟨_, rfl, by decide, by simpa [Place.down, linkedTree] using hkind⟩
      · simp [Place.down, linkedTree, hl] at hkind
    · simp [Place.down, linkedTree] at hkind
  dir {p} hp hne hdir := by
    rcases standing_linked hp with rfl | ⟨n, s, rfl⟩
    · exact absurd rfl hne
    · rw [linkedFiles_share]
      exact linkedFiles_einval _
  file {p} hp hfile := by
    rcases standing_linked hp with rfl | ⟨n, s, rfl⟩
    · simp [linkedTree] at hfile
    · simp [linkedTree] at hfile
  up {p} hp hne := by
    rcases standing_linked hp with rfl | ⟨n, s, rfl⟩
    · exact absurd rfl hne
    · rw [linkedFiles_share]
      refine ⟨.enoent, linkedFiles_enoent ?_ ?_⟩
      · intro hl
        exact absurd (List.cons.inj (List.cons.inj hl).2).1 (by decide)
      · have hdot : slash :: slash :: (s ++ slash :: n ++ slash :: dotdot) =
            slash :: slash :: (s ++ slash :: n ++ [slash, dot]) ++ [dot] := by simp [dotdot]
        rw [hdot, List.getLast?_concat]
        decide

theorem realpath_resolves_linked : ∃ n q,
    Resolves linkedTree anywhere ⟨false, []⟩ [.name (ascii ['l'])] n q ∧ n < symloopMax ∧
      linkedTree.Real q ∧ ascii ['/', '/', 's', '/', 'n'] = rpText q := by
  have hopen : (Env.bare.openPath [] (ascii ['/', 'l']) >>= Env.bare.joinCwd linkedFiles) =
      .ok (ascii ['/', 'l']) := rfl
  have hcwd : ∀ cwd, linkedFiles.getcwd = .ok cwd → cwd.head? = some slash := by
    intro cwd h
    cases h
    rfl
  exact (realpath_resolves linkedFiles_reads hcwd hopen (by decide)).1 _ (by decide)

end ApeShim.Nt
