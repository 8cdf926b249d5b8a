import Mathlib

/-!
The scanner of `shim/console.c`, which follows the private modes in what is written to the
console, and the terminal it stands for.
-/

namespace ApeShim.Console

/-! ## Modes -/

structure Modes where
  altscreen : Bool
  altscroll : Bool
  bracketed : Bool
  deriving DecidableEq, Repr

/-- `apply` -/
def Modes.apply (m : Modes) (on : Bool) (x : Nat) : Modes :=
  if x = 47 ∨ x = 1047 ∨ x = 1049 then { m with altscreen := on }
  else if x = 1007 then { m with altscroll := on }
  else if x = 2004 then { m with bracketed := on }
  else m

/-- What they are before anything is written. -/
def Modes.default : Modes := ⟨false, true, false⟩

def escape : UInt8 := 0x1b

def isDigit (c : UInt8) : Bool := 0x30 ≤ c && c ≤ 0x39

/-- The bytes that end a control sequence. -/
def isFinal (c : UInt8) : Bool := 0x40 ≤ c && c ≤ 0x7e

/-- `h` sets and `l` resets. -/
def sets (c : UInt8) : Bool := c = 0x68

inductive State
  | asc | esc | csi | priv
  deriving DecidableEq, Repr

/-! ## The scanner -/

/-- `params[8]` and `nparams` -/
structure Params where
  vals : List UInt32
  bound : vals.length ≤ 8

def Params.empty : Params := ⟨[], Nat.zero_le 8⟩

/-- A parameter is kept while there is room. -/
def Params.push (p : Params) (x : UInt32) : Params :=
  if h : p.vals.length < 8 then ⟨p.vals ++ [x], by simp; omega⟩ else p

structure Scanner where
  st : State
  modes : Modes
  param : UInt32
  params : Params

def Scanner.init : Scanner := ⟨.asc, .default, 0, .empty⟩

/-- One byte of `scan`. -/
def Scanner.byte (s : Scanner) (c : UInt8) : Scanner :=
  match s.st with
  | .asc => if c = escape then { s with st := .esc } else s
  | .esc => { s with st := if c = 0x5b then .csi else .asc }
  | .csi =>
    if c = 0x3f then { s with st := .priv, param := 0, params := .empty }
    else if isFinal c then { s with st := .asc }
    else s
  | .priv =>
    if isDigit c then { s with param := s.param * 10 + (c.toUInt32 - 0x30) }
    else if c = 0x3b then { s with params := s.params.push s.param, param := 0 }
    else if c = 0x68 ∨ c = 0x6c then
      let params := s.params.push s.param
      { s with
        params := params
        modes := (params.vals.map UInt32.toNat).foldl (fun m x => m.apply (sets c) x) s.modes
        st := .asc }
    else if isFinal c then { s with st := .asc }
    else s

/-- `scan` -/
def Scanner.scan (s : Scanner) (bytes : List UInt8) : Scanner := bytes.foldl Scanner.byte s

/-! ## The terminal -/

/-- A terminal that keeps every parameter whole. -/
structure Terminal where
  st : State
  modes : Modes
  param : Nat
  params : List Nat
  deriving DecidableEq

def Terminal.init : Terminal := ⟨.asc, .default, 0, []⟩

/-- The parameters of the sequence that ends here, applied in order. -/
def Terminal.assign (t : Terminal) (c : UInt8) (params : List Nat) : Modes :=
  params.foldl (fun m x => m.apply (sets c) x) t.modes

def Terminal.all (t : Terminal) : List Nat := t.params ++ [t.param]

/-- An escape byte starts a new sequence wherever it stands. -/
def Terminal.byte (t : Terminal) (c : UInt8) : Terminal :=
  if c = escape then { t with st := .esc }
  else
    match t.st with
    | .asc => t
    | .esc => { t with st := if c = 0x5b then .csi else .asc }
    | .csi =>
      if c = 0x3f then { t with st := .priv, param := 0, params := [] }
      else if isFinal c then { t with st := .asc }
      else t
    | .priv =>
      if isDigit c then { t with param := t.param * 10 + (c.toNat - 0x30) }
      else if c = 0x3b then { t with params := t.all, param := 0 }
      else if c = 0x68 ∨ c = 0x6c then
        { t with params := t.all, modes := t.assign c t.all, st := .asc }
      else if isFinal c then { t with st := .asc }
      else t

def Terminal.read (t : Terminal) (bytes : List UInt8) : Terminal := bytes.foldl Terminal.byte t

/-- The first eight parameters, as 32 bits hold them. -/
def Terminal.kept (t : Terminal) : List Nat := (t.all.take 8).map (· % 2 ^ 32)

/-- An escape byte comes outside of a sequence, and the parameters past the eighth and past 32
bits change nothing. -/
structure Terminal.Takes (t : Terminal) (c : UInt8) : Prop where
  escape : c = Console.escape → t.st = .asc
  params : t.st = .priv → c = 0x68 ∨ c = 0x6c → t.assign c t.kept = t.assign c t.all

instance (t : Terminal) (c : UInt8) : Decidable (t.Takes c) :=
  decidable_of_iff ((c = escape → t.st = .asc) ∧
      (t.st = .priv → c = 0x68 ∨ c = 0x6c → t.assign c t.kept = t.assign c t.all))
    ⟨fun h => ⟨h.1, h.2⟩, fun h => ⟨h.escape, h.params⟩⟩

/-- Every byte is one the scanner takes as the terminal does. -/
def Terminal.Calm : Terminal → List UInt8 → Prop
  | _, [] => True
  | t, c :: cs => t.Takes c ∧ Calm (t.byte c) cs

instance Terminal.decidableCalm : (t : Terminal) → (bytes : List UInt8) → Decidable (t.Calm bytes)
  | _, [] => isTrue trivial
  | t, c :: cs => @instDecidableAnd _ _ _ (decidableCalm (t.byte c) cs)

/-! ## The scanner follows the terminal -/

structure Follows (s : Scanner) (t : Terminal) : Prop where
  st : s.st = t.st
  modes : s.modes = t.modes
  params : t.st = .priv → s.params.vals.map UInt32.toNat = (t.params.take 8).map (· % 2 ^ 32)
  param : t.st = .priv → s.param.toNat = t.param % 2 ^ 32

section Bytes

variable {c : UInt8}

theorem digit_value (h : isDigit c = true) : (c.toUInt32 - 0x30).toNat = c.toNat - 0x30 := by
  simp only [isDigit, Bool.and_eq_true, decide_eq_true_eq, UInt8.le_iff_toNat_le] at h
  have hle : (0x30 : UInt32) ≤ c.toUInt32 := by
    rw [UInt32.le_iff_toNat_le, UInt8.toNat_toUInt32]
    exact h.1
  rw [UInt32.toNat_sub_of_le _ _ hle, UInt8.toNat_toUInt32]
  rfl

theorem digit_push {p : UInt32} {n : Nat} (hp : p.toNat = n % 2 ^ 32) (h : isDigit c = true) :
    (p * 10 + (c.toUInt32 - 0x30)).toNat = (n * 10 + (c.toNat - 0x30)) % 2 ^ 32 := by
  rw [UInt32.toNat_add, UInt32.toNat_mul, digit_value h, hp]
  simp only [Nat.add_mod, Nat.mul_mod, Nat.mod_mod]
  rfl

end Bytes

/-- The array keeps the first eight of the list. -/
theorem Params.push_eq {p : Params} {l : List Nat} {x : UInt32} {n : Nat}
    (hp : p.vals.map UInt32.toNat = (l.take 8).map (· % 2 ^ 32)) (hx : x.toNat = n % 2 ^ 32) :
    (p.push x).vals.map UInt32.toNat = ((l ++ [n]).take 8).map (· % 2 ^ 32) := by
  have hlen : p.vals.length = min 8 l.length := by simpa using congrArg List.length hp
  rw [Params.push]
  split
  · have hroom : l.length < 8 := by omega
    rw [List.map_append, hp, List.take_of_length_le (by omega),
      List.take_of_length_le (by simp; omega)]
    simp [hx]
  · rw [hp, List.take_append_of_le_length (by omega)]

section Step

variable {s : Scanner} {t : Terminal} {c : UInt8}

theorem Follows.params_push (h : Follows s t) (hst : t.st = .priv) :
    (s.params.push s.param).vals.map UInt32.toNat = t.kept :=
  Params.push_eq (h.params hst) (h.param hst)

theorem Follows.outside {s' : Scanner} {t' : Terminal} (hst : s'.st = t'.st)
    (hmodes : s'.modes = t'.modes) (hpriv : t'.st ≠ .priv) : Follows s' t' :=
  ⟨hst, hmodes, fun h => absurd h hpriv, fun h => absurd h hpriv⟩

/-- One byte keeps them together. -/
theorem Follows.byte (h : Follows s t) (hc : t.Takes c) : Follows (s.byte c) (t.byte c) := by
  have hst := h.st
  by_cases hesc : c = escape
  · have hasc : t.st = .asc := hc.escape hesc
    rw [Terminal.byte, if_pos hesc, Scanner.byte, hst, hasc]
    simp only [if_pos hesc]
    exact .outside rfl h.modes (by simp)
  · rw [Terminal.byte, if_neg hesc, Scanner.byte, hst]
    cases ht : t.st with
    | asc =>
      simp only [if_neg hesc]
      exact h
    | esc =>
      have hnext : (if c = 0x5b then State.csi else .asc) ≠ .priv := by split <;> simp
      exact .outside rfl h.modes hnext
    | csi =>
      simp only
      split
      · exact ⟨rfl, h.modes, fun _ => rfl, fun _ => rfl⟩
      · split
        · exact .outside rfl h.modes (by simp)
        · exact h
    | priv =>
      simp only
      split
      · rename_i hdigit
        exact ⟨rfl, h.modes, fun _ => h.params ht, fun _ => digit_push (h.param ht) hdigit⟩
      · split
        · exact ⟨rfl, h.modes, fun _ => h.params_push ht, fun _ => rfl⟩
        · split
          · rename_i hset
            refine .outside rfl ?_ (by simp)
            rw [h.params_push ht, h.modes, ← hc.params ht hset]
            rfl
          · split
            · exact .outside rfl h.modes (by simp)
            · exact h

end Step

theorem follows_init : Follows .init .init := .outside rfl rfl (by simp [Terminal.init])

theorem Follows.read {s : Scanner} {t : Terminal} {bytes : List UInt8} (h : Follows s t)
    (hc : t.Calm bytes) : Follows (s.scan bytes) (t.read bytes) := by
  induction bytes generalizing s t with
  | nil => exact h
  | cons c cs ih => exact ih (h.byte hc.1) hc.2

theorem Terminal.Calm.left {t : Terminal} {a b : List UInt8} (h : t.Calm (a ++ b)) : t.Calm a := by
  induction a generalizing t with
  | nil => trivial
  | cons c cs ih => exact ⟨h.1, ih h.2⟩

theorem scan_append (s : Scanner) (a b : List UInt8) : s.scan (a ++ b) = (s.scan a).scan b :=
  List.foldl_append

/-- Writes are scanned as if they were one. -/
theorem foldl_scan (s : Scanner) (writes : List (List UInt8)) :
    writes.foldl Scanner.scan s = s.scan writes.flatten := by
  induction writes generalizing s with
  | nil => rfl
  | cons w writes ih => rw [List.foldl_cons, ih, List.flatten_cons, scan_append]

/-- **The console scanner.** However the bytes are split, the scanner ends in one state, and
while they are calm its modes are the terminal's after every write. -/
theorem scan_tracks (writes : List (List UInt8)) (hcalm : Terminal.init.Calm writes.flatten) :
    (∀ other : List (List UInt8), other.flatten = writes.flatten →
      other.foldl Scanner.scan .init = writes.foldl Scanner.scan .init) ∧
    ∀ done, done <+: writes →
      (done.foldl Scanner.scan .init).modes = (Terminal.init.read done.flatten).modes := by
  constructor
  · intro other hother
    rw [foldl_scan, foldl_scan, hother]
  · rintro done ⟨rest, rfl⟩
    rw [List.flatten_append] at hcalm
    rw [foldl_scan]
    exact (follows_init.read hcalm.left).modes

/-- The alternate screen, opened in two writes. -/
theorem scan_tracks_altscreen :
    ([[0x1b, 0x5b, 0x3f], [0x31, 0x30, 0x34, 0x39, 0x68]].foldl Scanner.scan .init).modes =
      (Terminal.init.read [0x1b, 0x5b, 0x3f, 0x31, 0x30, 0x34, 0x39, 0x68]).modes := by
  have hcalm : Terminal.init.Calm [0x1b, 0x5b, 0x3f, 0x31, 0x30, 0x34, 0x39, 0x68] := by decide
  exact (scan_tracks [[0x1b, 0x5b, 0x3f], [0x31, 0x30, 0x34, 0x39, 0x68]] hcalm).2 _
    (List.prefix_refl _)

/-- The alternate screen is missed behind an escape byte that stands in a sequence, as the
ninth parameter, and past 32 bits another one is taken for it. -/
theorem scan_misses_altscreen :
    ((Scanner.init.scan [0x1b, 0x1b, 0x5b, 0x3f, 0x34, 0x37, 0x68]).modes.altscreen = false ∧
      (Terminal.init.read [0x1b, 0x1b, 0x5b, 0x3f, 0x34, 0x37, 0x68]).modes.altscreen = true) ∧
    ((Scanner.init.scan [0x1b, 0x5b, 0x3f, 0x3b, 0x3b, 0x3b, 0x3b, 0x3b, 0x3b, 0x3b, 0x3b, 0x34,
        0x37, 0x68]).modes.altscreen = false ∧
      (Terminal.init.read [0x1b, 0x5b, 0x3f, 0x3b, 0x3b, 0x3b, 0x3b, 0x3b, 0x3b, 0x3b, 0x3b, 0x34,
        0x37, 0x68]).modes.altscreen = true) ∧
    ((Scanner.init.scan [0x1b, 0x5b, 0x3f, 0x34, 0x32, 0x39, 0x34, 0x39, 0x36, 0x37, 0x33, 0x34,
        0x33, 0x68]).modes.altscreen = true ∧
      (Terminal.init.read [0x1b, 0x5b, 0x3f, 0x34, 0x32, 0x39, 0x34, 0x39, 0x36, 0x37, 0x33, 0x34,
        0x33, 0x68]).modes.altscreen = false) := by
  decide

end ApeShim.Console
