import ApeShim.Nt.Chars

/-!
The two normalizers of `shim/mkntpath.c`. `__normntpath` works on a whole path in
place; `__normuncrest` works on what follows a share and reports a climb out of it.
Both are brought down to a walk over the path's components.
-/

namespace ApeShim.Nt
open Walk

/-! ## `__normntpath` -/

/-- `i + 1 == n || IsSlash(p[i + 1])`, on what follows `p[i]`. -/
def slashNext : Str → Bool
  | [] => true
  | c :: _ => isSlash16 c

def dotNext : Str → Bool
  | [] => false
  | c :: rest => c = dot && slashNext rest

/-- The matched `/..`: the output, newest first, goes back to before its last
component, or keeps a `..` it cannot resolve. -/
def upOne (o : Str) : Str :=
  match o.dropWhile (· = bslash) with
  | [] => []
  | d :: e =>
      if d = dot ∧ e.head? = some dot ∧ (e.tail = [] ∨ e.tail.head? = some bslash) then
        dot :: bslash :: d :: e
      else if d = dot ∧ (e = [] ∨ e.head? = some bslash) then d :: e
      else (d :: e).dropWhile (· ≠ bslash)

/-- The loop of `__normntpath`: what is left to read, and `p[0..j)` newest first. -/
def normLoop : Str → Str → Str
  | [], o => o.reverse
  | c :: rest, o =>
      let c := if c = slash then bslash else c
      if 1 < o.length ∧ c = bslash ∧ o.head? = some bslash then normLoop rest o
      else if o.head? = some bslash ∧ c = dot ∧ slashNext rest = true then
        match rest with
        | [] => o.reverse
        | _ :: rest => normLoop rest o
      else if o.head? = some bslash ∧ c = dot ∧ dotNext rest = true then normLoop rest (upOne o)
      else normLoop rest (c :: o)

def normntpath (p : Str) : Str := normLoop p []

/-! ## `__normuncrest` -/

/-- The names of what follows a share, newest first, and whether a `..` climbed out. -/
def uncLoop : List Str → List Str → Bool → List Str × Bool
  | [], st, climbed => (st, climbed)
  | p :: ps, st, climbed =>
      if p = [dot] then uncLoop ps st climbed
      else if p = dotdot then
        match st with
        | [] => uncLoop ps [] true
        | _ :: st => uncLoop ps st climbed
      else if p = [] then uncLoop ps st climbed
      else uncLoop ps (p :: st) climbed

/-- `__normuncrest`: `""` or `"\a\b"`, with a trailing separator kept. -/
def normuncrest (p : Str) : Str × Bool :=
  let r := uncLoop (components p) [] false
  let body := r.1.reverse.flatMap fun c => bslash :: c
  let trailing := p.getLast?.any isSlash
  (if trailing && !body.isEmpty then body ++ [bslash] else body, r.2)

theorem uncLoop_eq (ps : List Str) (st : List Str) (climbed : Bool) :
    uncLoop ps st climbed = (clamp st (ps.map move), climbed || climbs st (ps.map move)) := by
  induction ps generalizing st climbed with
  | nil => simp [uncLoop, clamp, climbs]
  | cons p ps ih =>
    simp only [uncLoop, List.map_cons, move]
    by_cases hdot : p = [dot]
    · simp [hdot, ih, clamp, climbs]
    · by_cases hup : p = dotdot
      · subst hup
        rw [if_neg hdot, if_pos rfl, if_neg (by decide), if_pos rfl]
        cases st with
        | nil => simp [ih, clamp, climbs]
        | cons n st => simp [ih, clamp, climbs]
      · by_cases hnil : p = []
        · simp [hnil, ih, clamp, climbs, dotdot]
        · simp [hdot, hup, hnil, ih, clamp, climbs]

/-! ## What `__normntpath` has written -/

/-- The output between two components, newest first: a base, then components, each
with its separator. -/
def written : List Str → Str → Str
  | [], b => b
  | c :: st, b => bslash :: (c.reverse ++ written st b)

/-- The base is nothing, or the two separators of `\\server` and `\\?`. -/
structure Norm where
  rooted : Bool
  st : List Str
  deriving DecidableEq

def Norm.base (s : Norm) : Str := if s.rooted then [bslash, bslash] else []

def Norm.out (s : Norm) : Str := written s.st s.base

def Norm.start : Norm := ⟨false, []⟩

/-- What one component does. At the very start even `.` and `..` are copied. -/
def Norm.next (s : Norm) (p : Str) : Norm :=
  if s = .start then ⟨false, [p]⟩
  else
    match move p with
    | .stay => s
    | .name _ => { s with st := p :: s.st }
    | .up =>
        match s.st with
        | [] => ⟨false, [[dot]]⟩
        | t :: st =>
            if t = dotdot then { s with st := dotdot :: t :: st }
            else if t = [dot] then { s with st := dotdot :: st }
            else if s.rooted = false ∧ st = [] then ⟨false, [[dot]]⟩
            else { s with st := st }

/-- Components have no separators and are not empty. -/
def Norm.Clean (s : Norm) : Prop := ∀ c ∈ s.st, c ≠ [] ∧ ∀ x ∈ c, isSlash x = false

section Loop

variable {o rest p : Str} {c s : UInt16}

theorem isSlash_bslash : isSlash bslash = true := by decide

theorem ne_bslash (h : isSlash c = false) : c ≠ bslash := by
  rintro rfl
  exact absurd h (by decide)

theorem ne_slash (h : isSlash c = false) : c ≠ slash := by
  rintro rfl
  exact absurd h (by decide)

theorem isSlash16_of_isSlash (h : isSlash c = true) : isSlash16 c = true := by
  simp only [isSlash, Bool.or_eq_true, decide_eq_true_eq] at h
  rcases h with rfl | rfl <;> decide

theorem fix_isSlash (h : isSlash c = true) : (if c = slash then bslash else c) = bslash := by
  simp only [isSlash, Bool.or_eq_true, decide_eq_true_eq] at h
  rcases h with rfl | rfl <;> decide

theorem normLoop_cons : normLoop (c :: rest) o =
    let c := if c = slash then bslash else c
    if 1 < o.length ∧ c = bslash ∧ o.head? = some bslash then normLoop rest o
    else if o.head? = some bslash ∧ c = dot ∧ slashNext rest = true then
      match rest with
      | [] => o.reverse
      | _ :: rest => normLoop rest o
    else if o.head? = some bslash ∧ c = dot ∧ dotNext rest = true then normLoop rest (upOne o)
    else normLoop rest (c :: o) := normLoop.eq_def (c :: rest) o

/-- Inside a component every character is copied. -/
theorem normLoop_inside (hc : isSlash c = false) (ho : o.head? ≠ some bslash) :
    normLoop (c :: rest) o = normLoop rest (c :: o) := by
  rw [normLoop_cons]
  simp only [if_neg (ne_slash hc), ho, and_false, false_and, if_false]

theorem normLoop_inside_list (hp : ∀ x ∈ p, isSlash x = false) (ho : o.head? ≠ some bslash) :
    normLoop (p ++ rest) o = normLoop rest (p.reverse ++ o) := by
  induction p generalizing o with
  | nil => rfl
  | cons c p ih =>
    have hc := hp c (by simp)
    rw [List.cons_append, normLoop_inside hc ho, ih (fun x hx => hp x (by simp [hx]))]
    · simp
    · simpa using ne_bslash hc

/-- A separator after a component is written as a backslash. -/
theorem normLoop_sep (hs : isSlash s = true) (ho : o.head? ≠ some bslash) :
    normLoop (s :: rest) o = normLoop rest (bslash :: o) := by
  rw [normLoop_cons]
  simp only [fix_isSlash hs, ho, and_false, false_and, if_false]

/-- A repeated separator is dropped. -/
theorem normLoop_repeat (hs : isSlash s = true) (hlen : 1 < o.length)
    (ho : o.head? = some bslash) : normLoop (s :: rest) o = normLoop rest o := by
  rw [normLoop_cons]
  simp only [fix_isSlash hs, hlen, ho, and_self, if_true]

/-- A `.` between separators is dropped with the one behind it. -/
theorem normLoop_dot (hs : isSlash s = true) (ho : o.head? = some bslash) :
    normLoop (dot :: s :: rest) o = normLoop rest o := by
  have hfix : (if dot = slash then bslash else dot) = dot := by decide
  have hne : dot ≠ bslash := by decide
  rw [normLoop_cons]
  simp only [hfix, hne, false_and, and_false, if_false, ho, slashNext, isSlash16_of_isSlash hs,
    and_self, if_true]

theorem normLoop_dot_last (ho : o.head? = some bslash) : normLoop [dot] o = o.reverse := by
  have hfix : (if dot = slash then bslash else dot) = dot := by decide
  have hne : dot ≠ bslash := by decide
  rw [normLoop_cons]
  simp only [hfix, hne, false_and, and_false, if_false, ho, slashNext, and_self, if_true]

/-- A `..` between separators: back, and on with its second dot. -/
theorem normLoop_dotdot (hnext : slashNext rest = true) (ho : o.head? = some bslash) :
    normLoop (dot :: dot :: rest) o = normLoop (dot :: rest) (upOne o) := by
  have hfix : (if dot = slash then bslash else dot) = dot := by decide
  have hne : dot ≠ bslash := by decide
  have hfirst : slashNext (dot :: rest) = false := by
    show isSlash16 dot = false
    decide
  have hsecond : dotNext (dot :: rest) = true := by simp [dotNext, hnext]
  rw [normLoop_cons]
  simp only [hfix, hne, false_and, and_false, if_false, ho, hfirst, Bool.false_eq_true, hsecond,
    and_self, if_true]

/-- The first character of a component that is neither `.` nor `..`. -/
theorem normLoop_first (hc : isSlash c = false)
    (hdot : c = dot → slashNext rest = false ∧ dotNext rest = false) :
    normLoop (c :: rest) o = normLoop rest (c :: o) := by
  rw [normLoop_cons]
  simp only [if_neg (ne_slash hc), ne_bslash hc, false_and, and_false, if_false]
  by_cases hd : c = dot
  · obtain ⟨h₁, h₂⟩ := hdot hd
    simp [h₁, h₂]
  · simp [hd]

/-- A component that is taken for `.` or `..` only where it is. -/
def Readable (p : Str) : Prop :=
  p.head? = some dot → (slashNext p.tail = true → p = [dot]) ∧ (dotNext p.tail = true → p = dotdot)

/-- A proper component is copied. -/
theorem normLoop_proper (hp : Proper p) (hread : Readable p) :
    normLoop (p ++ rest) o = normLoop rest (p.reverse ++ o) := by
  cases p with
  | nil => exact absurd rfl hp.ne_nil
  | cons c p =>
    have hc := hp.noSlash c (by simp)
    have hno : ∀ x ∈ p, isSlash x = false := fun x hx => hp.noSlash x (by simp [hx])
    rw [List.cons_append, normLoop_first hc, normLoop_inside_list hno]
    · simp
    · simpa using ne_bslash hc
    · rintro rfl
      obtain ⟨hslash, hdot⟩ := hread rfl
      have hslash : slashNext p = false := by
        rw [← Bool.not_eq_true]
        exact fun h => hp.ne_dot (hslash h)
      have hdot : dotNext p = false := by
        rw [← Bool.not_eq_true]
        exact fun h => hp.ne_dotdot (hdot h)
      cases p with
      | nil => exact absurd rfl hp.ne_dot
      | cons d p =>
        refine ⟨hslash, ?_⟩
        cases p with
        | nil =>
          have : d ≠ dot := by
            rintro rfl
            exact hp.ne_dotdot rfl
          simp [dotNext, this]
        | cons e p => exact hdot

theorem readable_of_plain (hp : ∀ x ∈ p, isSlash x = false) (hplain : Plain p) : Readable p := by
  have hno16 : ∀ x ∈ p, isSlash16 x = false := by
    intro x hx
    rw [← Bool.not_eq_true]
    intro h
    have hslash := hplain x hx h
    rw [hp x hx] at hslash
    cases hslash
  intro hhead
  rcases p with _ | ⟨c, _ | ⟨d, _ | ⟨e, p⟩⟩⟩
  · cases hhead
  · obtain rfl : c = dot := Option.some.inj hhead
    exact ⟨fun _ => rfl, fun h => absurd h Bool.false_ne_true⟩
  · obtain rfl : c = dot := Option.some.inj hhead
    refine ⟨fun h => ?_, fun h => ?_⟩
    · have h : isSlash16 d = true := h
      rw [hno16 d (by simp)] at h
      cases h
    · have : d = dot := by simpa [dotNext, slashNext] using h
      rw [this]
      rfl
  · refine ⟨fun h => ?_, fun h => ?_⟩
    · have h : isSlash16 d = true := h
      rw [hno16 d (by simp)] at h
      cases h
    · have h : isSlash16 e = true := by
        simp only [List.tail_cons, dotNext, Bool.and_eq_true] at h
        exact h.2
      rw [hno16 e (by simp)] at h
      cases h

end Loop

/-- A path all of whose components are. -/
def Legible (w : Str) : Prop := ∀ p ∈ components w, Readable p

theorem Plain.legible {w : Str} (h : Plain w) : Legible w := fun p hp =>
  readable_of_plain (noSlash_of_mem_components w p hp) fun x hx => h x (mem_of_mem_components hp hx)

namespace Norm

variable {s : Norm}

theorem written_boundary (st : List Str) {b : Str} (hb : b = [] ∨ b.head? = some bslash) :
    written st b = [] ∨ (written st b).head? = some bslash := by
  cases st with
  | nil => exact hb
  | cons c st => exact Or.inr rfl

theorem base_boundary (s : Norm) : s.base = [] ∨ s.base.head? = some bslash := by
  unfold base
  split
  · exact Or.inr rfl
  · exact Or.inl rfl

/-- Off the start the output ends with a separator. -/
theorem out_head (h : s ≠ .start) : s.out.head? = some bslash := by
  obtain ⟨rooted, st⟩ := s
  cases st with
  | cons c st => rfl
  | nil =>
    cases rooted with
    | true => rfl
    | false => exact absurd rfl h

theorem out_length (h : s ≠ .start) (hc : s.Clean) : 1 < s.out.length := by
  obtain ⟨rooted, st⟩ := s
  cases st with
  | cons c st =>
    have := List.length_pos_iff.mpr (hc c (by simp)).1
    simp only [out, written, List.length_cons, List.length_append, List.length_reverse]
    omega
  | nil =>
    cases rooted with
    | true => decide
    | false => exact absurd rfl h

theorem head_reverse {t : Str} (hne : t ≠ []) (ht : ∀ x ∈ t, isSlash x = false) (w : Str) :
    ∃ d e, t.reverse ++ w = d :: (e ++ w) ∧ t.reverse = d :: e ∧ d ≠ bslash ∧
      ∀ x ∈ e, x ≠ bslash := by
  cases hr : t.reverse with
  | nil => exact absurd (List.reverse_eq_nil_iff.mp hr) hne
  | cons d e =>
    have hmem : ∀ x ∈ d :: e, x ≠ bslash := by
      intro x hx
      rw [← hr, List.mem_reverse] at hx
      exact ne_bslash (ht x hx)
    exact ⟨d, e, rfl, rfl, hmem d (by simp), fun x hx => hmem x (by simp [hx])⟩

/-- What `..` makes of the output behind a component. -/
theorem upOne_written {t : Str} (hne : t ≠ []) (ht : ∀ x ∈ t, isSlash x = false) {w : Str}
    (hw : w = [] ∨ w.head? = some bslash) :
    upOne (bslash :: (t.reverse ++ w)) =
      if t = dotdot then dot :: bslash :: (dotdot ++ w) else if t = [dot] then dot :: w else w := by
  obtain ⟨d, e, happ, hrev, hd, he⟩ := head_reverse hne ht w
  have hdrop : (bslash :: (t.reverse ++ w)).dropWhile (· = bslash) = d :: (e ++ w) := by
    rw [happ]
    simp [hd]
  have hwdot : w.head? ≠ some dot := by
    rcases hw with rfl | hw
    · simp
    · rw [hw]
      decide
  have ht' : t = (d :: e).reverse := by rw [← hrev, List.reverse_reverse]
  unfold upOne
  rw [hdrop]
  simp only
  by_cases hdd : t = dotdot
  · have hde : d :: e = dotdot := by rw [← hrev, hdd]; rfl
    simp only [dotdot, List.cons.injEq] at hde
    obtain ⟨rfl, rfl⟩ := hde
    rw [if_pos hdd, if_pos]
    · rfl
    · exact ⟨rfl, rfl, hw⟩
  · rw [if_neg hdd]
    by_cases h1 : t = [dot]
    · have hde : d :: e = [dot] := by rw [← hrev, h1]; rfl
      simp only [List.cons.injEq] at hde
      obtain ⟨rfl, rfl⟩ := hde
      rw [if_pos h1, if_neg, if_pos]
      · rfl
      · exact ⟨rfl, hw⟩
      · rintro ⟨-, hx, -⟩
        exact hwdot hx
    · rw [if_neg h1, if_neg, if_neg]
      · rw [List.dropWhile_cons_of_pos (by simpa using hd), List.dropWhile_append_of_pos]
        · rcases hw with rfl | hw
          · rfl
          · cases w with
            | nil => rfl
            | cons x w =>
              simp only [List.head?_cons, Option.some.injEq] at hw
              simp [hw]
        · intro x hx
          simpa using he x hx
      · rintro ⟨rfl, hx⟩
        cases e with
        | nil => exact h1 ht'
        | cons x e =>
          rcases hx with hx | hx
          · simp at hx
          · exact he x (by simp) (by simpa using hx)
      · rintro ⟨rfl, hx, hy⟩
        cases e with
        | nil => exact hwdot hx
        | cons x e =>
          simp only [List.cons_append, List.head?_cons, Option.some.injEq] at hx
          subst hx
          cases e with
          | nil => exact hdd ht'
          | cons y e =>
            rcases hy with hy | hy
            · simp at hy
            · exact he y (by simp) (by simpa using hy)

/-- Reading goes on behind the separator, or ends. -/
def resume (rest o : Str) : Str :=
  match rest with
  | [] => o.reverse
  | _ :: rest => normLoop rest o

theorem clean_next (hc : s.Clean) {p : Str} (hp : ∀ x ∈ p, isSlash x = false)
    (hstart : s = .start → p ≠ []) : (s.next p).Clean := by
  have hdots : ∀ n, n ≠ 0 → List.replicate n dot ≠ [] ∧
      ∀ x ∈ List.replicate n dot, isSlash x = false := by
    intro n hn
    refine ⟨by simpa using hn, fun x hx => ?_⟩
    rw [List.eq_of_mem_replicate hx]
    decide
  have h1 : ([dot] : Str) ≠ [] ∧ ∀ x ∈ [dot], isSlash x = false := hdots 1 (by decide)
  have h2 : dotdot ≠ [] ∧ ∀ x ∈ dotdot, isSlash x = false := hdots 2 (by decide)
  unfold next
  split
  · rename_i hs
    intro c hcm
    rw [List.mem_singleton] at hcm
    rw [hcm]
    exact ⟨hstart hs, hp⟩
  · cases hm : move p with
    | stay => exact hc
    | name q =>
      obtain ⟨rfl, hne, -⟩ := move_name hm
      intro c hcm
      rcases List.mem_cons.mp hcm with rfl | hcm
      · exact ⟨hne, hp⟩
      · exact hc c hcm
    | up =>
      simp only
      cases hst : s.st with
      | nil =>
        intro c hcm
        rw [List.mem_singleton] at hcm
        rwa [hcm]
      | cons t st =>
        have ht := hc t (by simp [hst])
        have hrest : ∀ c ∈ st, c ≠ [] ∧ ∀ x ∈ c, isSlash x = false :=
          fun c hcm => hc c (by simp [hst, hcm])
        simp only
        split
        · intro c hcm
          simp only [List.mem_cons] at hcm
          rcases hcm with rfl | rfl | hcm
          · exact h2
          · exact ht
          · exact hrest c hcm
        · split
          · intro c hcm
            rcases List.mem_cons.mp hcm with rfl | hcm
            · exact h2
            · exact hrest c hcm
          · split
            · intro c hcm
              rw [List.mem_singleton] at hcm
              rwa [hcm]
            · exact hrest

theorem next_ne_start (hs : s ≠ .start) (p : Str) : s.next p ≠ .start := by
  unfold next
  rw [if_neg hs]
  cases hm : move p with
  | stay => exact hs
  | name q => simp [start]
  | up =>
    simp only
    cases hst : s.st with
    | nil => simp [start]
    | cons t st =>
      simp only
      split
      · simp [start]
      · split
        · simp [start]
        · split
          · simp [start]
          · rename_i h
            intro he
            apply h
            simp only [start, Norm.mk.injEq] at he
            exact he

/-- The component ends on a separator that is there already. -/
def ends (s : Norm) (p : Str) : Bool :=
  s ≠ .start &&
    match move p with
    | .stay => true
    | .name _ => false
    | .up =>
        match s.st with
        | [] => false
        | t :: st => t ≠ dotdot && t ≠ [dot] && !(s.rooted = false && st = [])

/-- One component: it is copied without the separator that follows, or it ends on
a separator that is there already. -/
theorem normLoop_component (hc : s.Clean) {p rest : Str} (hp : ∀ x ∈ p, isSlash x = false)
    (hread : Readable p) (hstart : s = .start → p ≠ []) (hrest : ∀ c ∈ rest.head?, isSlash c = true) :
    (s.ends p = false ∧ ∃ o, bslash :: o = (s.next p).out ∧ o.head? ≠ some bslash ∧
      normLoop (p ++ rest) s.out = normLoop rest o) ∨
    (s.ends p = true ∧ normLoop (p ++ rest) s.out = resume rest (s.next p).out) := by
  have hslash : slashNext rest = true := by
    cases rest with
    | nil => rfl
    | cons c rest => exact isSlash16_of_isSlash (hrest c rfl)
  by_cases hs : s = .start
  · -- at the start any component is copied as it is
    refine Or.inl ⟨by simp [ends, hs], p.reverse, ?_, ?_, ?_⟩
    · simp [next, hs, out, written, base]
    · obtain ⟨d, e, -, hrev, hd, -⟩ := head_reverse (hstart hs) hp []
      rw [hrev]
      simpa using hd
    · subst hs
      have hcopy : normLoop (p ++ rest) [] = normLoop rest (p.reverse ++ []) :=
        normLoop_inside_list hp (by simp)
      rw [List.append_nil] at hcopy
      exact hcopy
  · have hhead := out_head hs
    have hnext : s.next p = match move p with
        | .stay => s
        | .name _ => { s with st := p :: s.st }
        | .up =>
            match s.st with
            | [] => ⟨false, [[dot]]⟩
            | t :: st =>
                if t = dotdot then { s with st := dotdot :: t :: st }
                else if t = [dot] then { s with st := dotdot :: st }
                else if s.rooted = false ∧ st = [] then ⟨false, [[dot]]⟩
                else { s with st := st } := by
      rw [next, if_neg hs]
    cases hm : move p with
    | name q =>
      obtain ⟨rfl, hne, h₁, h₂⟩ := move_name hm
      rw [hm] at hnext
      have hout : (s.next q).out = bslash :: (q.reverse ++ s.out) := by rw [hnext]; rfl
      refine Or.inl ⟨by simp [ends, hm], q.reverse ++ s.out, hout.symm, ?_, ?_⟩
      · obtain ⟨d, e, happ, -, hd, -⟩ := head_reverse hne hp s.out
        rw [happ]
        simpa using hd
      · exact normLoop_proper ⟨hne, hp, h₁, h₂⟩ hread
    | stay =>
      rw [hm] at hnext
      refine Or.inr ⟨by simp [ends, hm, hs], ?_⟩
      rw [hnext]
      rcases move_stay hm with rfl | rfl
      · cases rest with
        | nil => rfl
        | cons c rest => exact normLoop_repeat (hrest c rfl) (out_length hs hc) hhead
      · cases rest with
        | nil => exact normLoop_dot_last hhead
        | cons c rest => exact normLoop_dot (hrest c rfl) hhead
    | up =>
      rw [hm] at hnext
      obtain rfl := move_up hm
      have hstep : normLoop (dotdot ++ rest) s.out = normLoop (dot :: rest) (upOne s.out) :=
        normLoop_dotdot hslash hhead
      have hdot : isSlash dot = false := by decide
      -- the second dot is dropped behind a separator and copied elsewhere
      have hskip : ∀ o : Str, o.head? = some bslash → normLoop (dot :: rest) o = resume rest o := by
        intro o ho
        cases rest with
        | nil => exact normLoop_dot_last ho
        | cons c rest => exact normLoop_dot (hrest c rfl) ho
      cases hst : s.st with
      | nil =>
        have hroot : s.rooted = true := by
          by_contra hr
          apply hs
          obtain ⟨rooted, st⟩ := s
          simp only at hst hr
          simp [start, hst, hr]
        have hup : upOne s.out = [] := by simp [out, hst, base, hroot, written, upOne]
        rw [hst] at hnext
        refine Or.inl ⟨by simp [ends, hm, hst], [dot], by rw [hnext]; rfl, by decide, ?_⟩
        rw [hstep, hup]
        exact normLoop_inside hdot (by simp)
      | cons t st =>
        obtain ⟨hne, ht⟩ := hc t (by simp [hst])
        have hw := written_boundary st s.base_boundary
        have hup := upOne_written hne ht hw
        have hout : s.out = bslash :: (t.reverse ++ written st s.base) := by simp [out, hst, written]
        rw [hst] at hnext
        simp only at hnext
        rw [hout, hup] at hstep
        rw [hout]
        by_cases h2 : t = dotdot
        · rw [if_pos h2] at hstep hnext
          refine Or.inl ⟨by simp [ends, hm, hst, h2],
            dot :: dot :: bslash :: (dotdot ++ written st s.base), ?_, ?_, ?_⟩
          · rw [hnext, h2]
            rfl
          · simp [dot, bslash]
          · rw [hstep]
            exact normLoop_inside hdot (by simp [dot, bslash])
        · rw [if_neg h2] at hstep hnext
          by_cases h1 : t = [dot]
          · rw [if_pos h1] at hstep hnext
            refine Or.inl ⟨by simp [ends, hm, hst, h1], dot :: dot :: written st s.base, ?_, ?_, ?_⟩
            · rw [hnext]
              rfl
            · simp [dot, bslash]
            · rw [hstep]
              exact normLoop_inside hdot (by simp [dot, bslash])
          · rw [if_neg h1] at hstep hnext
            by_cases h0 : s.rooted = false ∧ st = []
            · rw [if_pos h0] at hnext
              have hempty : written st s.base = [] := by simp [h0.2, written, base, h0.1]
              refine Or.inl ⟨by simp [ends, hm, hst, h0], [dot], by rw [hnext]; rfl, by decide, ?_⟩
              rw [hstep, hempty]
              exact normLoop_inside hdot (by simp)
            · rw [if_neg h0] at hnext
              have hunder : s.rooted = true ∨ st ≠ [] := by
                by_contra hc'
                simp only [not_or, Bool.not_eq_true, not_not] at hc'
                exact h0 hc'
              refine Or.inr ⟨by simpa [ends, hm, hst, hs, h1, h2] using hunder, ?_⟩
              rw [hstep, hnext]
              apply hskip
              apply out_head (s := { s with st := st })
              intro he
              apply h0
              simp only [start, Norm.mk.injEq] at he
              exact he

/-- The state after the components of a path. -/
def run (s : Norm) (w : Str) : Norm := (components w).foldl next s

/-- Whether the last component does. -/
def endsAt (s : Norm) (w : Str) : Bool :=
  ((components w).dropLast.foldl next s).ends ((components w).getLastD [])

/-- **`__normntpath`** writes the state its components lead to, with or without a
separator at the end. -/
theorem normLoop_run (w : Str) (hread : Legible w) (s : Norm) (hc : s.Clean)
    (hstart : s = .start → ∃ c ∈ w.head?, isSlash c = false) :
    (s.run w).Clean ∧
      ∃ r, normLoop w s.out = r.reverse ∧ ((s.endsAt w = true ∧ r = (s.run w).out) ∨
        (s.endsAt w = false ∧ bslash :: r = (s.run w).out)) := by
  induction w using pieces_induction isSlash generalizing s with
  | last w h =>
    have hne : s = .start → w ≠ [] := by
      intro hs
      obtain ⟨c, hmem, -⟩ := hstart hs
      rintro rfl
      simp at hmem
    have hrun : s.run w = s.next w := by simp [run, components_last h]
    have hends : s.endsAt w = s.ends w := by simp [endsAt, components_last h]
    rw [hrun, hends]
    refine ⟨clean_next hc h hne, ?_⟩
    have hread : Readable w := hread w (by rw [components_last h]; exact List.mem_singleton_self w)
    rcases @normLoop_component s hc w [] h hread hne (by simp) with ⟨hf, o, ho, -, he⟩ | ⟨ht, he⟩
    · rw [List.append_nil] at he
      exact ⟨o, he, Or.inr ⟨hf, ho⟩⟩
    · rw [List.append_nil] at he
      exact ⟨_, he, Or.inl ⟨ht, rfl⟩⟩
  | step p c rest h hs ih =>
    have hne : s = .start → p ≠ [] := by
      intro hs'
      obtain ⟨d, hmem, hd⟩ := hstart hs'
      rintro rfl
      simp only [List.nil_append, List.head?_cons, Option.mem_def, Option.some.injEq] at hmem
      rw [hmem, hd] at hs
      cases hs
    rw [Legible, components_cons h hs, List.forall_mem_cons] at hread
    obtain ⟨hreadp, hreadr⟩ := hread
    have hrun : s.run (p ++ c :: rest) = (s.next p).run rest := by
      simp [run, components_cons h hs]
    have hends : s.endsAt (p ++ c :: rest) = (s.next p).endsAt rest := by
      obtain ⟨q, qs, hq⟩ : ∃ q qs, components rest = q :: qs :=
        List.exists_cons_of_ne_nil (components_ne_nil rest)
      simp only [endsAt, components_cons h hs, hq, List.dropLast_cons_cons, List.foldl_cons]
      rfl
    have hns : s.next p ≠ .start := by
      by_cases hs' : s = .start
      · simp [next, hs', start]
      · exact next_ne_start hs' p
    have hstep : normLoop (p ++ c :: rest) s.out = normLoop rest (s.next p).out := by
      rcases @normLoop_component s hc p (c :: rest) h hreadp hne (by simp [hs]) with
        ⟨-, o, ho, hhead, he⟩ | ⟨-, he⟩
      · rw [he, normLoop_sep hs hhead, ho]
      · exact he
    rw [hrun, hends, hstep]
    exact ih hreadr (s.next p) (clean_next hc h hne) fun he => absurd he hns

/-! ## The state as a walk -/

/-- A name that `..` can take back. -/
def Solid (t : Str) : Prop := t ≠ dotdot ∧ t ≠ [dot]

theorem solid_of_move {p q : Str} (h : move p = .name q) : Solid q := by
  obtain ⟨rfl, -, h₁, h₂⟩ := move_name h
  exact ⟨h₂, h₁⟩

theorem solid_of_proper {p : Str} (h : Proper p) : Solid p := ⟨h.ne_dotdot, h.ne_dot⟩

theorem next_name (hs : s ≠ .start) {p : Str} (h : move p = .name p) :
    s.next p = { s with st := p :: s.st } := by
  rw [next, if_neg hs, h]

theorem next_stay (hs : s ≠ .start) {p : Str} (h : move p = .stay) : s.next p = s := by
  rw [next, if_neg hs, h]

/-- `..` takes back a solid name that has something under it. -/
theorem next_up_solid {b : Bool} {t : Str} {st : List Str} (ht : Solid t)
    (hb : ¬ (b = false ∧ st = [])) {p : Str} (h : move p = .up) :
    Norm.next ⟨b, t :: st⟩ p = ⟨b, st⟩ := by
  rw [next, if_neg (by simp [start]), h]
  simp only [if_neg ht.1, if_neg ht.2, if_neg hb]

/-- What is left of `j` ups beyond the bottom. -/
def dots : Nat → List Str
  | 0 => [[dot]]
  | j + 1 => List.replicate (j + 1) dotdot

theorem dots_ne_nil (j : Nat) : dots j ≠ [] := by
  cases j <;> simp [dots]

theorem dots_reverse (j : Nat) : ∃ d ds, (dots j).reverse = (dot :: d) :: ds := by
  cases j with
  | zero => exact ⟨[], [], rfl⟩
  | succ j =>
    refine ⟨[dot], List.replicate j dotdot, ?_⟩
    rw [dots, List.reverse_replicate]
    rfl

theorem next_up_dots (j : Nat) {p : Str} (h : move p = .up) :
    Norm.next ⟨false, dots j⟩ p = ⟨false, dots (j + 1)⟩ := by
  have hne : (⟨false, dots j⟩ : Norm) ≠ .start := by simp [start, dots_ne_nil]
  rw [next, if_neg hne, h]
  cases j with
  | zero =>
    simp only [dots]
    rw [if_neg (by decide), if_pos trivial]
    rfl
  | succ j =>
    simp only [dots, List.replicate_succ]
    rw [if_pos trivial]

/-- What a walk cannot take back: the separators of `\\server`, or a first name. -/
def IsRoot (root : Norm) : Prop := root = ⟨true, []⟩ ∨ ∃ t, Solid t ∧ root = ⟨false, [t]⟩

/-- The state over the stack `S` on a root, after `k` ups and the names `R`. -/
def above (root : Norm) (S : List Str) (k : Nat) (R : List Str) : Norm :=
  if k ≤ S.length then ⟨root.rooted, R ++ S.drop k ++ root.st⟩
  else ⟨false, R ++ dots (k - S.length - 1)⟩

theorem above_ne_start {root : Norm} (hroot : IsRoot root) (S : List Str) (k : Nat) (R : List Str) :
    above root S k R ≠ .start := by
  unfold above
  split
  · rcases hroot with rfl | ⟨t, -, rfl⟩
    · simp [start]
    · simp [start]
  · simp [start, dots_ne_nil]

/-- Over a root, `..` takes back a solid name. -/
theorem next_up_over {root : Norm} (hroot : IsRoot root) {t : Str} (ht : Solid t) (st : List Str)
    {p : Str} (h : move p = .up) :
    Norm.next ⟨root.rooted, t :: st ++ root.st⟩ p = ⟨root.rooted, st ++ root.st⟩ := by
  apply next_up_solid ht _ h
  rcases hroot with rfl | ⟨u, -, rfl⟩
  · simp
  · simp

/-- From the root itself it leaves a `.`. -/
theorem next_up_root {root : Norm} (hroot : IsRoot root) {p : Str} (h : move p = .up) :
    Norm.next ⟨root.rooted, root.st⟩ p = ⟨false, dots 0⟩ := by
  rcases hroot with rfl | ⟨t, ht, rfl⟩
  · rw [next, if_neg (by simp [start]), h]
    rfl
  · rw [next, if_neg (by simp [start]), h]
    simp only [if_neg ht.1, if_neg ht.2, and_self, if_true]
    rfl

theorem foldl_next_above {root : Norm} (hroot : IsRoot root) {S : List Str} (hS : ∀ t ∈ S, Solid t)
    (ps : List Str) (k : Nat) (R : List Str) (hR : ∀ t ∈ R, Solid t) :
    ps.foldl next (above root S k R) =
      above root S (netFrom k R (ps.map move)).1 (netFrom k R (ps.map move)).2 := by
  induction ps generalizing k R with
  | nil => rfl
  | cons p ps ih =>
    rw [List.foldl_cons, List.map_cons]
    cases hm : move p with
    | stay =>
      rw [next_stay (above_ne_start hroot S k R) hm]
      exact ih k R hR
    | name q =>
      obtain rfl := (move_name hm).1
      have hnext : (above root S k R).next q = above root S k (q :: R) := by
        rw [next_name (above_ne_start hroot S k R) hm]
        unfold above
        split <;> rfl
      rw [hnext]
      refine ih k (q :: R) fun t ht => ?_
      rcases List.mem_cons.mp ht with rfl | ht
      · exact solid_of_move hm
      · exact hR t ht
    | up =>
      cases R with
      | cons r R =>
        have hr := hR r (by simp)
        have hnext : (above root S k (r :: R)).next p = above root S k R := by
          unfold above
          split
          · exact next_up_over hroot hr (R ++ S.drop k) hm
          · exact next_up_solid hr (by simp [dots_ne_nil]) hm
        rw [hnext]
        exact ih k R fun t ht => hR t (by simp [ht])
      | nil =>
        have hnext : (above root S k []).next p = above root S (k + 1) [] := by
          unfold above
          simp only [List.nil_append]
          rcases Nat.lt_trichotomy k S.length with hlt | heq | hgt
          · rw [if_pos hlt.le, if_pos (show k + 1 ≤ S.length from hlt),
              List.drop_eq_getElem_cons hlt]
            exact next_up_over hroot (hS _ (List.getElem_mem hlt)) (S.drop (k + 1)) hm
          · have : k + 1 - S.length - 1 = 0 := by omega
            rw [if_pos heq.le, if_neg (by omega), List.drop_eq_nil_of_le heq.ge, List.nil_append,
              next_up_root hroot hm, this]
          · rw [if_neg (by omega), if_neg (by omega), next_up_dots _ hm]
            have : k - S.length - 1 + 1 = k + 1 - S.length - 1 := by omega
            rw [this]
        rw [hnext]
        exact ih (k + 1) [] hR

/-- **Over a stack on a root**: as many names are dropped as the path goes up, down
to the root's own. -/
theorem run_above {root : Norm} (hroot : IsRoot root) {S : List Str} (hS : ∀ t ∈ S, Solid t)
    (w : Str) :
    Norm.run ⟨root.rooted, S ++ root.st⟩ w =
      above root S (net (moves w)).1 (net (moves w)).2 := by
  have h := foldl_next_above hroot hS (components w) 0 [] (by simp)
  have h0 : above root S 0 [] = ⟨root.rooted, S ++ root.st⟩ := by simp [above]
  rw [h0] at h
  exact h

theorem foldl_ne_start {ps : List Str} (hne : ps ≠ []) : ps.foldl next s ≠ .start := by
  have hkeep : ∀ (qs : List Str) (s : Norm), s ≠ .start → qs.foldl next s ≠ .start := by
    intro qs
    induction qs with
    | nil => exact fun s hs => hs
    | cons q qs ih => exact fun s hs => ih _ (next_ne_start hs q)
  cases ps with
  | nil => exact absurd rfl hne
  | cons p ps =>
    apply hkeep ps
    by_cases hs : s = .start
    · simp [next, hs, start]
    · exact next_ne_start hs p

/-- Where a name is left on top, a separator stays behind everything but a name. -/
theorem ends_eq (hs : s ≠ .start) {p : Str} (h : ∀ t ∈ (s.next p).st.head?, Solid t) :
    s.ends p = !named p := by
  rw [ends, decide_eq_true hs, Bool.true_and]
  cases hm : move p with
  | stay => rw [(named_eq_false p).mpr (Or.inl hm)]; rfl
  | name q =>
    obtain ⟨rfl, h₁, h₂, h₃⟩ := move_name hm
    simp [named, h₁, h₂, h₃]
  | up =>
    rw [(named_eq_false p).mpr (Or.inr hm)]
    rw [next, if_neg hs, hm] at h
    cases hst : s.st with
    | nil =>
      rw [hst] at h
      exact absurd rfl (h [dot] (by simp)).2
    | cons t st =>
      rw [hst] at h
      simp only at h ⊢
      split at h
      · exact absurd rfl (h dotdot (by simp)).1
      · rename_i h₂
        split at h
        · exact absurd rfl (h dotdot (by simp)).1
        · rename_i h₁
          split at h
          · exact absurd rfl (h [dot] (by simp)).2
          · rename_i h₀
            rw [decide_eq_true h₂, decide_eq_true h₁, Bool.and_self, Bool.true_and,
              ← Bool.decide_and, decide_eq_false h₀]

theorem endsAt_eq {w : Str} (hpre : (components w).dropLast.foldl next s ≠ .start)
    (h : ∀ t ∈ (s.run w).st.head?, Solid t) :
    s.endsAt w = !named ((components w).getLastD []) := by
  obtain ⟨front, l, hfront⟩ := (List.eq_nil_or_concat' (components w)).resolve_left
    (components_ne_nil w)
  have hget : (front ++ [l]).getLastD [] = l := by
    rw [List.getLastD_eq_getLast?, List.getLast?_concat]
    rfl
  have hnext : s.run w = (front.foldl next s).next l := by
    rw [run, hfront, List.foldl_append]
    rfl
  rw [hfront, List.dropLast_concat] at hpre
  rw [endsAt, hfront, List.dropLast_concat, hget]
  apply ends_eq hpre
  rw [← hnext]
  exact h

/-- What stands under the names of a relative path. -/
def Dots (k : Nat) (D : List Str) : Prop :=
  (k = 0 ∧ (D = [] ∨ D = [[dot]])) ∨ (0 < k ∧ D = List.replicate k dotdot)

theorem dots_dots (j : Nat) : Dots j (dots j) := by
  cases j with
  | zero => exact Or.inl ⟨rfl, Or.inr rfl⟩
  | succ j => exact Or.inr ⟨Nat.succ_pos j, rfl⟩

/-- Dots are a bottom that only grows. -/
theorem foldl_next_dots (ps : List Str) (j : Nat) :
    ps.foldl next ⟨false, dots j⟩ =
      ⟨false, (net (ps.map move)).2 ++ dots ((net (ps.map move)).1 + j)⟩ := by
  have h := foldl_next_above (Or.inl rfl : IsRoot ⟨true, []⟩) (S := []) (by simp) ps (j + 1) []
    (by simp)
  have hadd := netFrom_add 0 (j + 1) ([] : List Str) (ps.map move)
  rw [Nat.zero_add] at hadd
  rw [hadd] at h
  have h0 : above ⟨true, []⟩ [] (j + 1) [] = ⟨false, dots j⟩ := by simp [above]
  rw [h0] at h
  rw [h, above, if_neg (by simp)]
  rfl

/-- The path starts with a name, and no `..` takes it back. -/
def keepsFirst (w : Str) : Bool :=
  match components w with
  | [] => false
  | p :: ps => named p && (net (ps.map move)).1 = 0

/-- **A relative path** comes to its ups and its names. Nothing stands under them
exactly where the path's first component is kept, as the oldest. -/
theorem run_start {w : Str} (hw : ∃ c ∈ w.head?, isSlash c = false) :
    ∃ D, Dots (net (moves w)).1 D ∧ Norm.run .start w = ⟨false, (net (moves w)).2 ++ D⟩ ∧
      (D = [] → (net (moves w)).2.getLast? = (components w).head?) ∧
      (D = [] ↔ keepsFirst w = true) := by
  cases hcomp : components w with
  | nil => exact absurd hcomp (List.splitOnP_ne_nil _ _)
  | cons p ps =>
    have hp : p ≠ [] := by
      rintro rfl
      obtain ⟨c, hc, hslash⟩ := hw
      cases w with
      | nil => cases hc
      | cons d w =>
        obtain rfl : d = c := by simpa using hc
        obtain ⟨q, qs, hq⟩ : ∃ q qs, components w = q :: qs :=
          List.exists_cons_of_ne_nil (components_ne_nil w)
        rw [components, List.splitOnP_cons_eq_if_modifyHead, if_neg (by simp [hslash])] at hcomp
        rw [components] at hq
        rw [hq] at hcomp
        cases hcomp
    have hfirst : Norm.next .start p = ⟨false, [p]⟩ := by rw [next, if_pos rfl]
    simp only [run, moves, hcomp, List.foldl_cons, List.map_cons, hfirst]
    cases hm : move p with
    | stay =>
      obtain rfl := (move_stay hm).resolve_left hp
      refine ⟨dots (net (ps.map move)).1, dots_dots _, foldl_next_dots ps 0, fun h => ?_, ?_⟩
      · exact absurd h (dots_ne_nil _)
      · have : named [dot] = false := rfl
        simp [keepsFirst, hcomp, this, dots_ne_nil]
    | up =>
      obtain rfl := move_up hm
      have hnet : net (.up :: ps.map move) = ((net (ps.map move)).1 + 1, (net (ps.map move)).2) :=
        netFrom_add 0 1 [] (ps.map move)
      rw [hnet]
      refine ⟨dots ((net (ps.map move)).1 + 1), dots_dots _, foldl_next_dots ps 1, fun h => ?_, ?_⟩
      · exact absurd h (dots_ne_nil _)
      · have : named dotdot = false := rfl
        simp [keepsFirst, hcomp, this, dots_ne_nil]
    | name q =>
      obtain rfl := (move_name hm).1
      have hnet := net_atop [q] (ps.map move)
      have hroot : IsRoot ⟨false, [q]⟩ := Or.inr ⟨q, solid_of_move hm, rfl⟩
      have hrun := foldl_next_above hroot (S := []) (by simp) ps 0 [] (by simp)
      have h0 : above ⟨false, [q]⟩ [] 0 [] = ⟨false, [q]⟩ := by simp [above]
      rw [h0] at hrun
      rw [List.map_singleton, List.singleton_append, List.reverse_singleton] at hnet
      have hdef : netFrom 0 [] (ps.map move) = net (ps.map move) := rfl
      have hnamed : named q = true := by
        obtain ⟨-, h₁, h₂, h₃⟩ := move_name hm
        simp [named, h₁, h₂, h₃]
      have hkeeps : keepsFirst w = decide ((net (ps.map move)).1 = 0) := by
        simp only [keepsFirst, hcomp, hnamed, Bool.true_and]
      rw [hnet, hrun, hdef, hkeeps]
      by_cases hk : (net (ps.map move)).1 = 0
      · refine ⟨[], Or.inl ⟨by simp [atop, hk], Or.inl rfl⟩, ?_, fun _ => ?_, by simp [hk]⟩
        · simp [atop, above, hk]
        · simp [atop, hk]
      · have hatop : atop [q] (net (ps.map move)).1 (net (ps.map move)).2 =
            ((net (ps.map move)).1 - 1, (net (ps.map move)).2) := by
          unfold atop
          split
          · rename_i hle
            have h1 : (net (ps.map move)).1 = 1 := by
              simp only [List.length_singleton] at hle
              omega
            simp [h1]
          · rfl
        rw [hatop, above, if_neg (by simpa using hk)]
        exact ⟨dots ((net (ps.map move)).1 - 1), dots_dots _, rfl,
          fun h => absurd h (dots_ne_nil _), by simp [hk, dots_ne_nil]⟩

/-! ## The components of the result -/

theorem reverse_written (st : List Str) (b : Str) :
    (written st b).reverse = b.reverse ++ st.reverse.flatMap (fun c => c ++ [bslash]) := by
  induction st with
  | nil => simp [written]
  | cons c st ih => simp [written, ih]

theorem flatMap_ended (p : Str) (ps : List Str) :
    ((p :: ps).flatMap fun c => c ++ [bslash]) = p ++ spell bslash ps ++ [bslash] := by
  induction ps generalizing p with
  | nil => simp [spell]
  | cons q ps ih =>
    rw [List.flatMap_cons, ih q]
    simp [spell]

/-- **The text** that stands for a state. -/
theorem normLoop_text {w : Str} (hread : Legible w) (hc : s.Clean)
    (hstart : s = .start → ∃ c ∈ w.head?, isSlash c = false) {b : Bool} {p : Str} {ps : List Str}
    (hrun : s.run w = ⟨b, (p :: ps).reverse⟩) :
    normLoop w s.out = (if b then [bslash, bslash] else []) ++
      (p ++ spell bslash ps ++ (if s.endsAt w then [bslash] else [])) := by
  obtain ⟨-, r, hr, hor⟩ := normLoop_run w hread s hc hstart
  have hout : (out ⟨b, (p :: ps).reverse⟩).reverse =
      (if b then [bslash, bslash] else []) ++ (p ++ spell bslash ps ++ [bslash]) := by
    have hbase : (base ⟨b, (p :: ps).reverse⟩).reverse = if b then [bslash, bslash] else [] := by
      cases b <;> rfl
    rw [out, reverse_written, List.reverse_reverse, flatMap_ended, hbase]
  rw [hrun] at hor
  rw [hr]
  rcases hor with ⟨he, rfl⟩ | ⟨he, hr⟩
  · rw [hout, he]
    rfl
  · rw [← hr, List.reverse_cons, ← List.append_assoc] at hout
    rw [List.append_cancel_right hout, he]
    simp

theorem foldl_next_names {ps : List Str} (hp : ∀ p ∈ ps, Proper p) (hs : s ≠ .start) :
    ps.foldl next s = { s with st := ps.reverse ++ s.st } := by
  induction ps generalizing s with
  | nil => rfl
  | cons p ps ih =>
    have hm := (hp p (by simp)).move
    rw [List.foldl_cons, ih (fun q hq => hp q (by simp [hq])) (next_ne_start hs p),
      next_name hs hm]
    simp

end Norm

theorem head_of_components {w p : Str} {ps : List Str} (hw : components w = p :: ps)
    (hp : Proper p) : ∃ c ∈ w.head?, isSlash c = false := by
  cases w with
  | nil =>
    have h0 : components [] = [[]] := rfl
    rw [h0] at hw
    exact absurd (List.cons.inj hw).1.symm hp.ne_nil
  | cons c w =>
    refine ⟨c, rfl, ?_⟩
    by_contra hc
    have hc : isSlash c = true := by simpa using hc
    have h0 : components (c :: w) = [] :: components w := components_cons (p := []) (by simp) hc w
    rw [h0] at hw
    exact absurd (List.cons.inj hw).1.symm hp.ne_nil

/-- A path that starts with a component, normalized. -/
theorem normntpath_text {w : Str} (hread : Legible w) (hw : ∃ c ∈ w.head?, isSlash c = false)
    {q : Str} {ps : List Str} (hrun : Norm.run .start w = ⟨false, (q :: ps).reverse⟩) :
    normntpath w =
      q ++ spell bslash ps ++ (if Norm.endsAt .start w then [bslash] else []) := by
  have hclean : Norm.Clean .start := by
    intro c hc
    cases hc
  have := Norm.normLoop_text hread hclean (fun _ => hw) hrun
  exact this

/-- **A path of names** is copied. -/
theorem normntpath_names {w p : Str} (hplain : Plain w) {ps : List Str} {t : Bool}
    (hp : ∀ q ∈ p :: ps, Proper q) (hw : components w = p :: ps ++ (if t then [[]] else [])) :
    normntpath w = p ++ belowVol bslash ps t := by
  have hfirst : Norm.next .start p = ⟨false, [p]⟩ := by rw [Norm.next, if_pos rfl]
  have hns : (⟨false, [p]⟩ : Norm) ≠ .start := by simp [Norm.start]
  have hnames : (p :: ps).foldl Norm.next .start = ⟨false, (p :: ps).reverse⟩ := by
    rw [List.foldl_cons, hfirst, Norm.foldl_next_names (fun q hq => hp q (by simp [hq])) hns]
    simp
  have hne : (⟨false, (p :: ps).reverse⟩ : Norm) ≠ .start := by simp [Norm.start]
  have hrun : Norm.run .start w = ⟨false, (p :: ps).reverse⟩ := by
    rw [Norm.run, hw, List.foldl_append, hnames]
    cases t with
    | false => rfl
    | true => exact Norm.next_stay hne (p := []) rfl
  have hends : Norm.endsAt .start w = t := by
    rw [Norm.endsAt, hw]
    cases t with
    | true =>
      have hlast : (p :: ps ++ [[]]).getLastD [] = [] := by
        rw [List.getLastD_eq_getLast?, List.getLast?_concat]
        rfl
      rw [if_pos rfl, List.dropLast_concat, hnames, hlast, Norm.ends, decide_eq_true hne]
      rfl
    | false =>
      obtain ⟨qs, q, hq⟩ := (List.eq_nil_or_concat' (p :: ps)).resolve_left (by simp)
      have hm := (hp q (by simp [hq])).move
      have hlast : (p :: ps ++ (if false = true then [[]] else [])).getLastD [] = q := by
        rw [if_neg (by decide), List.append_nil, hq]
        simp
      rw [hlast, Norm.ends, hm, Bool.and_false]
  rw [normntpath_text hplain.legible (head_of_components hw (hp p (by simp))) hrun, hends, belowVol,
    List.append_assoc]

end ApeShim.Nt
