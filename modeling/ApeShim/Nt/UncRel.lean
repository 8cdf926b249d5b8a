import ApeShim.Lib.Memory
import ApeShim.Lib.Walk

/-!
`__ape_shim_unc_rel` (`shim/uncshare.c`): a relative path joined onto a current directory
that is on a share, or inside the tree the share lists are materialized in. Strings are
bytes, and the output buffer is memory that holds something before.
-/

namespace ApeShim.Nt.UncRel
open Walk Memory

abbrev CStr := List UInt8

def slash : UInt8 := 0x2F
def bslash : UInt8 := 0x5C
def dot : UInt8 := 0x2E

def isSep (c : UInt8) : Bool := c = slash || c = bslash

def lower (c : UInt8) : UInt8 := if 0x41 ≤ c ∧ c ≤ 0x5A then c + 0x20 else c

/-! ## The join -/

/-- The output up to `o`, and whether a separator followed the last component. -/
structure Cursor where
  mem : Nat → UInt8
  o : Nat
  trailing : Bool

/-- `while (o > base && out[o - 1] != '/') o--;` -/
def backTo (m : Nat → UInt8) (base : Nat) : Nat → Nat
  | 0 => 0
  | o + 1 => if base < o + 1 ∧ m o ≠ slash then backTo m base o else o + 1

def Cursor.pop (base : Nat) (c : Cursor) : Cursor :=
  let o := backTo c.mem base c.o
  { c with o := if base < o then o - 1 else o }

def Cursor.push (w : CStr) (c : Cursor) : Cursor :=
  { c with mem := blit c.mem c.o (slash :: w), o := c.o + 1 + w.length }

/-- The loop over one of the two parts; `false` is a `return 0` inside. -/
def relLoop (base outsz : Nat) : Nat → CStr → Cursor → Cursor × Bool
  | 0, _, c => (c, true)
  | fuel + 1, p, c =>
      if p = [] then (c, true)
      else
        let p := p.dropWhile isSep
        let w := p.takeWhile fun x => !isSep x
        let q := p.dropWhile fun x => !isSep x
        let c := { c with trailing := w ≠ [] && q.head?.any isSep }
        if w = [dot] then relLoop base outsz fuel q c
        else if w = [dot, dot] then relLoop base outsz fuel q (c.pop base)
        else if w ≠ [] then
          if c.o + w.length + 2 > outsz then (c, false)
          else relLoop base outsz fuel q (c.push w)
        else relLoop base outsz fuel q c

/-- `rest` and then the path, on a stack above the server. -/
def joinServer (rest path : CStr) (outsz : Nat) (m : Nat → UInt8) : (Nat → UInt8) × Bool :=
  let server := rest.takeWhile (· ≠ slash)
  let d := rest.dropWhile (· ≠ slash)
  let base := server.length + 2
  if server.length + 3 > outsz then (m, false)
  else
    let m := blit m 0 (slash :: slash :: server)
    match relLoop base outsz d.length d ⟨m, base, false⟩ with
    | (c, false) => (c.mem, false)
    | (c, true) =>
        match relLoop base outsz path.length path c with
        | (c, false) => (c.mem, false)
        | (c, true) =>
            let c : Cursor :=
              if c.trailing && base < c.o && c.o + 1 < outsz then
                { c with mem := Function.update c.mem c.o slash, o := c.o + 1 }
              else c
            (Function.update c.mem c.o 0, true)

def hasDotdot (p : CStr) : Bool := (p.splitOnP isSep).any (· = [dot, dot])

/-- What the process sees: `us_root_unix`, `__ape_shim_unc_any`, and the current directory
as `nt_to_unix` spells it, if it can be asked for. -/
structure World where
  windows : Bool
  usRootUnix : CStr
  uncAny : Bool
  cwd : Option CStr

/-- `under_root`. -/
def World.underRoot (w : World) (path : CStr) : Option CStr :=
  let n := w.usRootUnix.length
  if n = 0 ∨ (path.take n).map lower ≠ w.usRootUnix.map lower ∨ path[n]? ≠ some slash ∨
      path.length ≤ n + 1 then none
  else some (path.drop (n + 1))

/-- `__ape_shim_unc_rel`: the buffer afterwards, and what is returned. -/
def World.uncRel (w : World) (path : CStr) (outsz : Nat) (m : Nat → UInt8) : (Nat → UInt8) × Bool :=
  if w.windows = false then (m, false)
  else if w.usRootUnix = [] ∧ w.uncAny = false then (m, false)
  else
    match w.cwd with
    | none => (m, false)
    | some cwd =>
        match w.underRoot cwd with
        | some rest => joinServer rest path outsz m
        | none =>
            if cwd.take 2 = [slash, slash] ∧ hasDotdot path = true then
              -- snprintf
              let text := cwd ++ slash :: path
              (if outsz = 0 then m else blit m 0 (text.take (outsz - 1) ++ [0]), text.length < outsz)
            else (m, false)

/-! ## What it should be -/

def move (p : CStr) : Move CStr :=
  if p = [] ∨ p = [dot] then .stay else if p = [dot, dot] then .up else .name p

def moves (p : CStr) : List (Move CStr) := (p.splitOnP isSep).map move

/-- `//server` and the names below it, newest first. -/
def spelled (server : CStr) (st : List CStr) : CStr :=
  slash :: slash :: (server ++ st.reverse.flatMap fun n => slash :: n)

/-- The names left of `d/path`, on a stack that never pops the server. -/
def left (d path : CStr) : List CStr := clamp (clamp [] (moves d)) (moves path)

/-- A separator ends the path of something below the server. -/
def ends (d path : CStr) : Bool := left d path ≠ [] && path.getLast?.any isSep

/-- `//server` followed by the lexical resolution of `d/path`. -/
def resolution (server d path : CStr) : CStr :=
  spelled server (left d path) ++ (if ends d path then [slash] else [])

/-- The buffer holds a string. -/
def Holds (m : Nat → UInt8) (s : CStr) : Prop := view m 0 s.length = s ∧ m s.length = 0

/-- Every name on the way fits the buffer, with the end of the string. -/
def Roomy (server : CStr) (outsz : Nat) : List CStr → List (Move CStr) → Prop
  | _, [] => True
  | st, .stay :: ms => Roomy server outsz st ms
  | st, .up :: ms => Roomy server outsz st.tail ms
  | st, .name n :: ms => (spelled server (n :: st)).length < outsz ∧ Roomy server outsz (n :: st) ms

instance decRoomy (server : CStr) (outsz : Nat) :
    (st : List CStr) → (ms : List (Move CStr)) → Decidable (Roomy server outsz st ms)
  | _, [] => isTrue trivial
  | st, .stay :: ms => decRoomy server outsz st ms
  | st, .up :: ms => decRoomy server outsz st.tail ms
  | st, .name n :: ms =>
      have := decRoomy server outsz (n :: st) ms
      inferInstanceAs (Decidable (_ ∧ _))

/-- So does all of `//server`, `d` and the path. -/
def Fits (server d path : CStr) (outsz : Nat) : Prop :=
  (spelled server []).length < outsz ∧ Roomy server outsz [] (moves d) ∧
    Roomy server outsz (clamp [] (moves d)) (moves path)

instance (server d path : CStr) (outsz : Nat) : Decidable (Fits server d path outsz) :=
  inferInstanceAs (Decidable (_ ∧ _ ∧ _))

/-- The current directory is inside the materialized tree, as `server` and `d`. -/
structure World.Inside (w : World) (server d : CStr) : Prop where
  windows : w.windows = true
  cwd : ∃ cwd, w.cwd = some cwd ∧ w.underRoot cwd = some (server ++ d)
  noSlash : ∀ x ∈ server, x ≠ slash
  below : ∀ x ∈ d.head?, x = slash

/-! ## Walking the components -/

theorem moves_sep {c : UInt8} (hc : isSep c = true) (p : CStr) : moves (c :: p) = .stay :: moves p := by
  rw [moves, show c :: p = [] ++ c :: p from rfl,
    List.splitOnP_append_cons_of_forall_mem (by simp) c hc]
  rfl

theorem moves_comp {w : CStr} (hw : ∀ x ∈ w, isSep x = false) : moves w = [move w] := by
  rw [moves, List.splitOnP_eq_singleton hw]
  rfl

theorem moves_comp_cons {w : CStr} {c : UInt8} (hw : ∀ x ∈ w, isSep x = false)
    (hc : isSep c = true) (p : CStr) : moves (w ++ c :: p) = move w :: moves p := by
  rw [moves, List.splitOnP_append_cons_of_forall_mem hw c hc]
  rfl

/-- What a walk makes of a stack, and whether all of it fits. -/
structure SameWalk (server : CStr) (outsz : Nat) (ms ms' : List (Move CStr)) : Prop where
  clamp : ∀ st, Walk.clamp st ms = Walk.clamp st ms'
  roomy : ∀ st, Roomy server outsz st ms ↔ Roomy server outsz st ms'

variable {server : CStr} {outsz : Nat}

theorem SameWalk.trans {a b c : List (Move CStr)} (h : SameWalk server outsz a b)
    (h' : SameWalk server outsz b c) : SameWalk server outsz a c :=
  ⟨fun st => (h.clamp st).trans (h'.clamp st), fun st => (h.roomy st).trans (h'.roomy st)⟩

theorem sameWalk_dropWhile (p : CStr) :
    SameWalk server outsz (moves p) (moves (p.dropWhile isSep)) := by
  induction p with
  | nil => exact ⟨fun _ => rfl, fun _ => Iff.rfl⟩
  | cons c p ih =>
    by_cases hc : isSep c = true
    · rw [moves_sep hc, List.dropWhile_cons_of_pos hc]
      exact ⟨ih.clamp, ih.roomy⟩
    · rw [List.dropWhile_cons_of_neg hc]
      exact ⟨fun _ => rfl, fun _ => Iff.rfl⟩

/-- The loop's next component, and what is left to read. -/
def word (p : CStr) : CStr := (p.dropWhile isSep).takeWhile fun x => !isSep x

def unread (p : CStr) : CStr := (p.dropWhile isSep).dropWhile fun x => !isSep x

theorem word_noSep (p : CStr) : ∀ x ∈ word p, isSep x = false := by
  intro x hx
  simpa using List.mem_takeWhile_imp hx

theorem unread_cases (p : CStr) : unread p = [] ∨ ∃ c q, isSep c = true ∧ unread p = c :: q := by
  cases hu : unread p with
  | nil => exact Or.inl rfl
  | cons c q =>
    refine Or.inr ⟨c, q, ?_, rfl⟩
    have hne : (p.dropWhile isSep).dropWhile (fun x => !isSep x) ≠ [] := by
      intro h
      rw [unread, h] at hu
      cases hu
    have := List.head_dropWhile_not (fun x => !isSep x) (l := p.dropWhile isSep) hne
    simp only [unread] at hu
    simpa [hu] using this

theorem sameWalk_word (p : CStr) :
    SameWalk server outsz (moves p) (move (word p) :: moves (unread p)) := by
  refine (sameWalk_dropWhile p).trans ?_
  have hsplit : p.dropWhile isSep = word p ++ unread p := (List.takeWhile_append_dropWhile).symm
  have hword := word_noSep p
  have hstay : ∀ st (m : Move CStr), clamp st [m, .stay] = clamp st [m] ∧
      (Roomy server outsz st [m, .stay] ↔ Roomy server outsz st [m]) := by
    intro st m
    cases m <;> exact ⟨rfl, Iff.rfl⟩
  rw [hsplit]
  rcases unread_cases p with hu | ⟨c, q, hc, hu⟩
  · rw [hu, List.append_nil, moves_comp hword]
    exact ⟨fun st => (hstay st _).1.symm, fun st => (hstay st _).2.symm⟩
  · rw [hu, moves_comp_cons hword hc, moves_sep hc]
    constructor
    · intro st
      cases move (word p) <;> rfl
    · intro st
      cases move (word p) <;> exact Iff.rfl

theorem unread_length (p : CStr) (hp : p ≠ []) : (unread p).length < p.length := by
  have hlen : (unread p).length ≤ (p.dropWhile isSep).length := List.length_dropWhile_le _ _
  cases p with
  | nil => exact absurd rfl hp
  | cons c p =>
    by_cases hc : isSep c = true
    · have := List.length_dropWhile_le isSep p
      rw [List.dropWhile_cons_of_pos hc] at hlen
      rw [List.length_cons]
      omega
    · have hstep : unread (c :: p) = p.dropWhile fun x => !isSep x := by
        rw [unread, List.dropWhile_cons_of_neg hc, List.dropWhile_cons_of_pos (by simpa using hc)]
      rw [hstep, List.length_cons]
      exact Nat.lt_succ_of_le (List.length_dropWhile_le _ _)

theorem relLoop_succ (base fuel : Nat) {p : CStr} (hp : p ≠ []) (c : Cursor) :
    relLoop base outsz (fuel + 1) p c =
      let c : Cursor := { c with trailing := word p ≠ [] && (unread p).head?.any isSep }
      if word p = [dot] then relLoop base outsz fuel (unread p) c
      else if word p = [dot, dot] then relLoop base outsz fuel (unread p) (c.pop base)
      else if word p ≠ [] then
        if c.o + (word p).length + 2 > outsz then (c, false)
        else relLoop base outsz fuel (unread p) (c.push (word p))
      else relLoop base outsz fuel (unread p) c := by
  rw [relLoop, if_neg hp]
  rfl

/-! ## The buffer as a stack -/

theorem spelled_cons (server n : CStr) (st : List CStr) :
    spelled server (n :: st) = spelled server st ++ slash :: n := by
  simp [spelled, List.flatMap_append]

theorem spelled_length (server n : CStr) (st : List CStr) :
    (spelled server (n :: st)).length = (spelled server st).length + 1 + n.length := by
  rw [spelled_cons, List.length_append, List.length_cons]
  omega

/-- The output is `//server` and the names of a stack. -/
structure At (server : CStr) (st : List CStr) (c : Cursor) : Prop where
  o : c.o = (spelled server st).length
  text : view c.mem 0 c.o = spelled server st
  names : ∀ n ∈ st, ∀ x ∈ n, x ≠ slash

theorem backTo_name {m : Nat → UInt8} {base t : Nat} (hbase : base ≤ t) (hsep : m t = slash)
    (k : Nat) (hname : ∀ j < k, m (t + 1 + j) ≠ slash) : backTo m base (t + 1 + k) = t + 1 := by
  induction k with
  | zero =>
    rw [Nat.add_zero, backTo, if_neg]
    exact fun h => h.2 hsep
  | succ k ih =>
    rw [← Nat.add_assoc, backTo, if_pos ⟨by omega, hname k (Nat.lt_succ_self k)⟩]
    exact ih fun j hj => hname j (by omega)

theorem backTo_base {m : Nat → UInt8} {base : Nat} : backTo m base base = base := by
  cases base with
  | zero => rfl
  | succ b => rw [backTo, if_neg (by omega)]

namespace At

variable {st : List CStr} {c : Cursor}

theorem trailing (h : At server st c) (t : Bool) : At server st { c with trailing := t } :=
  ⟨h.o, h.text, h.names⟩

theorem pop (h : At server st c) : At server st.tail (c.pop (server.length + 2)) := by
  have hbase : (spelled server []).length = server.length + 2 := by simp [spelled]
  cases st with
  | nil =>
    have ho : c.o = server.length + 2 := h.o.trans hbase
    have hpop : c.pop (server.length + 2) = c := by
      simp only [Cursor.pop]
      rw [ho, backTo_base, if_neg (Nat.lt_irrefl _), ← ho]
    rw [hpop]
    exact h
  | cons n st =>
    obtain ⟨t, ht⟩ : ∃ t, t = (spelled server st).length := ⟨_, rfl⟩
    have ho : c.o = t + 1 + n.length := by rw [h.o, spelled_length, ht]
    have hle : server.length + 2 ≤ t := by
      rw [ht]
      simp only [spelled, List.length_cons, List.length_append]
      omega
    have htext := h.text
    rw [ho, spelled_cons, Nat.add_assoc, view_add] at htext
    obtain ⟨hbelow, htop⟩ := List.append_inj htext (by rw [view_length, ht])
    rw [Nat.add_comm 1, Nat.zero_add, Nat.add_comm n.length, view_add] at htop
    have htop : view c.mem t 1 ++ view c.mem (t + 1) n.length = [slash] ++ n := htop
    obtain ⟨hsep, hname⟩ := List.append_inj htop (by simp)
    have hsep : c.mem t = slash := by simpa [view_succ] using hsep
    have hno : ∀ j < n.length, c.mem (t + 1 + j) ≠ slash := by
      intro j hj
      refine h.names n List.mem_cons_self _ ?_
      rw [← hname]
      exact List.mem_map.mpr ⟨j, List.mem_range.mpr hj, rfl⟩
    have hpop : (c.pop (server.length + 2)).o = t := by
      simp only [Cursor.pop]
      rw [ho, backTo_name hle hsep _ hno, if_pos (by omega)]
      omega
    refine ⟨hpop.trans ht, ?_, fun k hk => h.names k (List.mem_cons_of_mem n hk)⟩
    rw [hpop]
    exact hbelow

theorem push (h : At server st c) {w : CStr} (hw : ∀ x ∈ w, x ≠ slash) :
    At server (w :: st) (c.push w) := by
  refine ⟨?_, ?_, ?_⟩
  · rw [Cursor.push, spelled_length, ← h.o]
  · have hlen : c.o + 1 + w.length = c.o + (slash :: w).length := by
      rw [List.length_cons]
      omega
    have hview := view_blit_append (m := c.mem) (a := 0) (n := c.o) (slash :: w)
    rw [Nat.zero_add, h.text] at hview
    rw [Cursor.push, spelled_cons]
    simp only
    rw [hlen]
    exact hview
  · intro n hn
    rcases List.mem_cons.mp hn with rfl | hn
    · exact hw
    · exact h.names n hn

end At

theorem Cursor.push_frame {c : Cursor} {w : CStr} {i : Nat} (hi : c.o + 1 + w.length ≤ i) :
    (c.push w).mem i = c.mem i := by
  rw [Cursor.push]
  refine blit_of_ge ?_
  rw [List.length_cons]
  omega

/-! ## The loop -/

/-- What the loop makes of a part: it is resolved on the stack, as far as all of it fits,
nothing behind the buffer is written, and the flag for a last separator ends up clear. -/
structure Resolves (server : CStr) (outsz : Nat) (st : List CStr) (ms : List (Move CStr))
    (c : Cursor) (r : Cursor × Bool) : Prop where
  ok : r.2 = true ↔ Roomy server outsz st ms
  at_ : r.2 = true → At server (clamp st ms) r.1 ∧ r.1.trailing = false
  frame : ∀ i, outsz ≤ i → r.1.mem i = c.mem i

theorem relLoop_resolves {st : List CStr} {c : Cursor} (h : At server st c) (fuel : Nat) (p : CStr)
    (hfuel : p.length ≤ fuel) (htrail : p = [] → c.trailing = false) :
    Resolves server outsz st (moves p) c (relLoop (server.length + 2) outsz fuel p c) := by
  induction fuel generalizing st c p with
  | zero =>
    have hp : p = [] := List.eq_nil_of_length_eq_zero (by omega)
    subst hp
    exact ⟨⟨fun _ => trivial, fun _ => rfl⟩, fun _ => ⟨h, htrail rfl⟩, fun _ _ => rfl⟩
  | succ fuel ih =>
    by_cases hp : p = []
    · subst hp
      rw [relLoop, if_pos rfl]
      exact ⟨⟨fun _ => trivial, fun _ => rfl⟩, fun _ => ⟨h, htrail rfl⟩, fun _ _ => rfl⟩
    have hless := unread_length p hp
    have hwalk := @sameWalk_word server outsz p
    obtain ⟨c', hc'⟩ : ∃ c' : Cursor,
      c' = { c with trailing := word p ≠ [] && (unread p).head?.any isSep } := ⟨_, rfl⟩
    have hat : At server st c' := hc' ▸ h.trailing _
    have hmem : c'.mem = c.mem := by rw [hc']
    have hco : c'.o = c.o := by rw [hc']
    have htr : unread p = [] → c'.trailing = false := by
      intro hu
      simp [hc', hu]
    -- one more component, and the rest by induction
    have hstay : move (word p) = .stay →
        Resolves server outsz st (moves p) c (relLoop (server.length + 2) outsz fuel (unread p) c') := by
      intro hm
      have hrest := ih hat (unread p) (by omega) htr
      rw [hm] at hwalk
      refine ⟨hrest.ok.trans (hwalk.roomy st).symm, ?_, fun i hi => (hrest.frame i hi).trans (by rw [hmem])⟩
      rw [hwalk.clamp st]
      exact hrest.at_
    rw [relLoop_succ _ _ hp]
    simp only [← hc']
    split
    · rename_i hw
      exact hstay (by rw [hw]; rfl)
    · rename_i hdot
      split
      · rename_i hw
        have hm : move (word p) = .up := by rw [hw]; rfl
        rw [hm] at hwalk
        have hrest := ih hat.pop (unread p) (by omega) htr
        refine ⟨hrest.ok.trans (hwalk.roomy st).symm, ?_, fun i hi => (hrest.frame i hi).trans ?_⟩
        · rw [hwalk.clamp st]
          exact hrest.at_
        · rw [← hmem]
          rfl
      · rename_i hdots
        split
        · rename_i hne
          have hm : move (word p) = .name (word p) := by
            rw [move, if_neg (by rintro (hw | hw) <;> contradiction), if_neg hdots]
          rw [hm] at hwalk
          have hroom : (spelled server (word p :: st)).length < outsz ↔
              ¬ c.o + (word p).length + 2 > outsz := by
            rw [spelled_length, ← h.o]
            omega
          split
          · rename_i hfull
            refine ⟨?_, nofun, fun i _ => congrFun hmem i⟩
            rw [hwalk.roomy st]
            constructor
            · intro hok
              cases hok
            · rintro ⟨hfit, -⟩
              exact absurd hfull (hroom.mp hfit)
          · rename_i hfit
            have hno : ∀ x ∈ word p, x ≠ slash := by
              rintro x hx rfl
              exact absurd (word_noSep p _ hx) (by decide)
            have hrest := ih (hat.push hno) (unread p) (by omega) htr
            refine ⟨hrest.ok.trans ?_, ?_, fun i hi => (hrest.frame i hi).trans ?_⟩
            · rw [hwalk.roomy st]
              exact (and_iff_right (hroom.mpr hfit)).symm
            · rw [hwalk.clamp st]
              exact hrest.at_
            · rw [Cursor.push_frame (by rw [hco]; omega), hmem]
        · rename_i hnil
          have hnil : word p = [] := by simpa using hnil
          exact hstay (by rw [hnil]; rfl)

/-! ## The result -/

theorem roomy_length {st : List CStr} {ms : List (Move CStr)}
    (hst : (spelled server st).length < outsz) (h : Roomy server outsz st ms) :
    (spelled server (clamp st ms)).length < outsz := by
  induction ms generalizing st with
  | nil => exact hst
  | cons m ms ih =>
    cases m with
    | stay => exact ih hst h
    | name n => exact ih h.1 h.2
    | up =>
      refine ih ?_ h
      cases st with
      | nil => exact hst
      | cons n st =>
        rw [spelled_length] at hst
        rw [List.tail_cons]
        omega

theorem joinServer_spec (path : CStr) {d : CStr} (hserver : ∀ x ∈ server, x ≠ slash)
    (hd : ∀ x ∈ d.head?, x = slash) (outsz : Nat) (m : Nat → UInt8) :
    ((joinServer (server ++ d) path outsz m).2 = true ↔ Fits server d path outsz) ∧
    ((joinServer (server ++ d) path outsz m).2 = true →
      Holds (joinServer (server ++ d) path outsz m).1 (spelled server (left d path))) ∧
    ∀ i, outsz ≤ i → (joinServer (server ++ d) path outsz m).1 i = m i := by
  have htake : (server ++ d).takeWhile (· ≠ slash) = server := by
    rw [List.takeWhile_append_of_pos (by simpa using hserver)]
    cases d with
    | nil => simp
    | cons c d => simp [hd c rfl]
  have hdrop : (server ++ d).dropWhile (· ≠ slash) = d := by
    rw [List.dropWhile_append_of_pos (by simpa using hserver)]
    cases d with
    | nil => rfl
    | cons c d => simp [hd c rfl]
  have hbase : (spelled server []).length = server.length + 2 := by simp [spelled]
  rw [joinServer]
  simp only [htake, hdrop]
  split
  · rename_i hfull
    refine ⟨⟨nofun, fun h => ?_⟩, nofun, fun _ _ => rfl⟩
    have := h.1
    omega
  rename_i hroom
  have hstart : At server [] ⟨blit m 0 (slash :: slash :: server), server.length + 2, false⟩ := by
    refine ⟨hbase.symm, ?_, by simp⟩
    have := view_blit (m := m) (a := 0) (slash :: slash :: server)
    rw [List.length_cons, List.length_cons] at this
    rw [this]
    simp [spelled]
  have hframe : ∀ i, outsz ≤ i → blit m 0 (slash :: slash :: server) i = m i := by
    intro i hi
    refine blit_of_ge ?_
    simp only [List.length_cons]
    omega
  have h₁ : Resolves server outsz [] (moves d) _ _ :=
    relLoop_resolves hstart d.length d (Nat.le_refl _) fun _ => rfl
  have hfits : (spelled server []).length < outsz := by omega
  rcases hr : relLoop (server.length + 2) outsz d.length d
    ⟨blit m 0 (slash :: slash :: server), server.length + 2, false⟩ with ⟨c, ok⟩
  rw [hr] at h₁
  cases ok with
  | false =>
    refine ⟨⟨nofun, fun h => ?_⟩, nofun, fun i hi => (h₁.frame i hi).trans (hframe i hi)⟩
    exact absurd (h₁.ok.mpr h.2.1) Bool.false_ne_true
  | true =>
    obtain ⟨hat, htr⟩ := h₁.at_ rfl
    have h₂ : Resolves server outsz (clamp [] (moves d)) (moves path) _ _ :=
      relLoop_resolves hat path.length path (Nat.le_refl _) fun _ => htr
    rcases hr₂ : relLoop (server.length + 2) outsz path.length path c with ⟨c₂, ok⟩
    rw [hr₂] at h₂
    have hframe₂ : ∀ i, outsz ≤ i → c₂.mem i = m i := fun i hi =>
      (h₂.frame i hi).trans ((h₁.frame i hi).trans (hframe i hi))
    simp only [hr₂]
    cases ok with
    | false =>
      refine ⟨⟨nofun, fun h => ?_⟩, nofun, hframe₂⟩
      exact absurd (h₂.ok.mpr h.2.2) Bool.false_ne_true
    | true =>
      obtain ⟨hat₂, htr₂⟩ := h₂.at_ rfl
      have hroomy : Fits server d path outsz := ⟨hfits, h₁.ok.mp rfl, h₂.ok.mp rfl⟩
      have hlt : c₂.o < outsz := by
        rw [hat₂.o]
        exact roomy_length (roomy_length hfits hroomy.2.1) hroomy.2.2
      simp only [show c₂.trailing = false from htr₂, Bool.false_and, Bool.false_eq_true, if_false]
      refine ⟨⟨fun _ => hroomy, fun _ => trivial⟩, fun _ => ⟨?_, ?_⟩, ?_⟩
      · have htext := hat₂.text
        rw [hat₂.o] at htext hlt
        rw [left, ← htext, view_length]
        exact view_congr fun i _ hi => Function.update_of_ne (by rw [hat₂.o]; omega) _ _
      · rw [left, ← hat₂.o]
        exact Function.update_self _ _ _
      · intro i hi
        rw [Function.update_of_ne (by omega)]
        exact hframe₂ i hi

theorem underRoot_some {w : World} {cwd rest : CStr} (h : w.underRoot cwd = some rest) :
    w.usRootUnix ≠ [] := by
  intro hnil
  simp [World.underRoot, hnil] at h

theorem World.Inside.uncRel_eq {w : World} {d : CStr} (h : w.Inside server d) (path : CStr)
    (outsz : Nat) (m : Nat → UInt8) :
    w.uncRel path outsz m = joinServer (server ++ d) path outsz m := by
  obtain ⟨cwd, hcwd, hroot⟩ := h.cwd
  have hne := underRoot_some hroot
  rw [World.uncRel, if_neg (by simp [h.windows]), if_neg fun hc => hne hc.1, hcwd]
  simp only [hroot]

/-- **A relative path below the server directory.** It is joined to `//server` and its lexical
resolution exactly when all of it fits the buffer and no separator ends the path of
something below the server; behind the buffer nothing is ever written. -/
theorem unc_rel_iff {w : World} {server d : CStr} (h : w.Inside server d) (path : CStr)
    (outsz : Nat) (m : Nat → UInt8) :
    ((w.uncRel path outsz m).2 = true ∧
        Holds (w.uncRel path outsz m).1 (resolution server d path) ∧
        ∀ i, outsz ≤ i → (w.uncRel path outsz m).1 i = m i) ↔
      Fits server d path outsz ∧ ends d path = false := by
  rw [h.uncRel_eq]
  obtain ⟨hok, hholds, hframe⟩ := joinServer_spec path h.noSlash h.below outsz m
  constructor
  · rintro ⟨htrue, htext, -⟩
    refine ⟨hok.mp htrue, ?_⟩
    by_contra hends
    rw [Bool.not_eq_false] at hends
    -- the string ends where the separator should stand
    have hzero := (hholds htrue).2
    have hview := htext.1
    rw [resolution, if_pos hends, List.length_append, List.length_singleton, view_succ,
      Nat.zero_add] at hview
    have hlast := List.append_inj_right hview (by simp)
    rw [hzero] at hlast
    exact absurd hlast (by decide)
  · rintro ⟨hfits, hends⟩
    refine ⟨hok.mpr hfits, ?_, hframe⟩
    rw [resolution, hends, if_neg (by decide), List.append_nil]
    exact hholds (hok.mpr hfits)

def bytes (cs : List Char) : CStr := cs.map fun c => UInt8.ofNat c.toNat

/-- The share list of `srv` is the current directory. -/
def atServer : World :=
  ⟨true, bytes ['/', 'C', '/', 't'], true, some (bytes ['/', 'C', '/', 't', '/', 's', 'r', 'v'])⟩

theorem atServer_inside : atServer.Inside (bytes ['s', 'r', 'v']) [] :=
  ⟨rfl, ⟨_, rfl, by decide⟩, by simp [bytes, slash], by simp⟩

theorem unc_rel_iff_parent :
    atServer.Inside (bytes ['s', 'r', 'v']) [] ∧
      Holds (atServer.uncRel (bytes ['d', '/', '.', '.', '/', 'e']) 16 fun _ => 1).1
        (bytes ['/', '/', 's', 'r', 'v', '/', 'e']) :=
  ⟨atServer_inside, ((unc_rel_iff atServer_inside (bytes ['d', '/', '.', '.', '/', 'e']) 16
    fun _ => 1).mpr ⟨by decide, by decide⟩).2.1⟩

/-- `d/`, seen from the server directory, loses its separator. -/
theorem trailing_slash_lost :
    (atServer.uncRel (bytes ['d', '/']) 16 fun _ => 1).2 = true ∧
      resolution (bytes ['s', 'r', 'v']) [] (bytes ['d', '/']) =
        bytes ['/', '/', 's', 'r', 'v', '/', 'd', '/'] ∧
      ¬ Holds (atServer.uncRel (bytes ['d', '/']) 16 fun _ => 1).1
        (resolution (bytes ['s', 'r', 'v']) [] (bytes ['d', '/'])) := by
  refine ⟨by decide, by decide, ?_⟩
  rintro ⟨h, -⟩
  exact absurd h (by decide)

end ApeShim.Nt.UncRel
