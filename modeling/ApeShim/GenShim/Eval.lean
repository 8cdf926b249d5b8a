import ApeShim.Lib.Str
import Mathlib.Logic.Function.Basic

/-!
The constants of the libc crate as the shim's table generator reads them (`xtask/src/genshim.rs`):
`scrape_consts` takes the text of each definition out of the source, `eval` evaluates it.
-/

namespace ApeShim.GenShim
open Str

/-! ## Scraping -/

/-- The text of each constant, by name. -/
abbrev Consts := Text → Option Text

/-- What one line of a file defines. -/
def scrapeLine (line : Text) : Option (Text × Text) := do
  let rest ← (trim line).dropPrefix? "pub const ".toList
  let (name, rest) ← splitOnce ':' rest
  let (_, expr) ← splitOnce '=' rest
  let expr ← (trim expr).dropSuffix? [';']
  some (trim name, trim expr)

/-- `out.entry(name).or_insert_with(..)`: the first definition wins. -/
def orInsert (out : Consts) (d : Text × Text) : Consts :=
  if (out d.1).isSome then out else Function.update out d.1 (some d.2)

def scrapeConsts (lines : List Text) (out : Consts) : Consts :=
  lines.foldl (fun out line => ((scrapeLine line).map (orInsert out)).getD out) out

/-! ## Evaluation -/

abbrev I64 := BitVec 64

/-- `as u32 as i32 as i64` -/
def castInt (v : I64) : I64 := (v.setWidth 32).signExtend 64

/-- What is between a wrapper's opening and the last parenthesis. -/
def inside (wrapper t : Text) : Option Text := (t.dropPrefix? wrapper).bind (·.dropSuffix? [')'])

/-- `expr.split(" as ").next()` -/
def beforeAs : Text → Text
  | [] => []
  | c :: t => if " as ".toList.isPrefixOf (c :: t) then [] else c :: beforeAs t

/-- `trim_start_matches("crate::")` -/
def dropCrate : Text → Text
  | 'c' :: 'r' :: 'a' :: 't' :: 'e' :: ':' :: ':' :: t => dropCrate t
  | t => t

/-- The reading of a literal that has lost its underscores. -/
def parsed : Text → Option I64
  | '0' :: 'x' :: h => fromStrRadix 16 h
  | '0' :: 'o' :: o => fromStrRadix 8 o
  | '0' :: c :: ds =>
    if (c :: ds).all Char.isDigit then fromStrRadix 8 (c :: ds)
    else fromStrRadix 10 ('0' :: c :: ds)
  | lit => fromStrRadix 10 lit

/-- `parsed`, of `expr.replace('_', "")` -/
def number (expr : Text) : Option I64 := parsed (expr.filter (· ≠ '_'))

/-- The end of `eval`: a literal, or an identifier whose definition is evaluated by `next`. -/
def resolve (consts : Consts) (next : Text → Option I64) (expr : Text) : Option I64 :=
  let expr := dropCrate (trim (beforeAs expr))
  match number expr with
  | some v => some v
  | none => (consts expr).bind next

/-- `eval`, with the number of calls that may be nested. -/
def evalWithin (consts : Consts) : Nat → Text → Option I64
  | 0, _ => none
  | room + 1, expr =>
    match splitOnce '|' (trim expr) with
    | some (l, r) => do
      let l ← evalWithin consts room l
      let r ← evalWithin consts room r
      some (l ||| r)
    | none =>
      match inside "u32_cast_int(".toList (trim expr) with
      | some inner => (evalWithin consts room inner).map castInt
      | none =>
        match inside "u32_cast_ioctl(".toList (trim expr) with
        | some inner => (evalWithin consts room inner).map castInt
        | none => resolve consts (evalWithin consts room) (trim expr)

/-- A depth beyond 8 is an error. -/
def eval (consts : Consts) (expr : Text) (depth : Nat) : Option I64 :=
  evalWithin consts (9 - depth) expr

end ApeShim.GenShim
