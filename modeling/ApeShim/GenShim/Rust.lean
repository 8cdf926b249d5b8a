import ApeShim.GenShim.Eval
import Mathlib.Logic.Relation

/-!
The constant expressions that the generator reads, as Rust has them: what they are, how they are
spelled and what they denote.
-/

namespace ApeShim.GenShim
open Str

/-! ## Types -/

inductive Width
  | w8 | w16 | w32 | w64 | w128 | size
  deriving DecidableEq, Repr

/-- Both targets have 64 bits. -/
def Width.bits : Width → Nat
  | .w8 => 8
  | .w16 => 16
  | .w32 => 32
  | .w64 | .size => 64
  | .w128 => 128

def Width.text : Width → Text
  | .w8 => "8".toList
  | .w16 => "16".toList
  | .w32 => "32".toList
  | .w64 => "64".toList
  | .w128 => "128".toList
  | .size => "size".toList

/-- An integer type. -/
structure Ty where
  signed : Bool
  width : Width
  deriving DecidableEq, Repr

abbrev Ty.bits (T : Ty) : Nat := T.width.bits

def Ty.text (T : Ty) : Text := (if T.signed then 'i' else 'u') :: T.width.text

def Ty.i32 : Ty := ⟨true, .w32⟩
def Ty.u32 : Ty := ⟨false, .w32⟩

/-- The number that some bits are. -/
def Ty.read (T : Ty) (x : BitVec T.bits) : Int := if T.signed then x.toInt else x.toNat

/-- `n as T` -/
def Ty.wrap (T : Ty) (n : Int) : Int := T.read (BitVec.ofInt T.bits n)

def Ty.or (T : Ty) (a b : Int) : Int := T.read (BitVec.ofInt T.bits a ||| BitVec.ofInt T.bits b)

/-- The numbers of the type. -/
def Ty.Holds (T : Ty) (n : Int) : Prop :=
  if T.signed then -2 ^ (T.bits - 1) ≤ n ∧ n < 2 ^ (T.bits - 1) else 0 ≤ n ∧ n < 2 ^ T.bits

/-! ## Literals -/

inductive Radix
  | dec | hex | oct | bin
  deriving DecidableEq, Repr

def Radix.base : Radix → Nat
  | .dec => 10
  | .hex => 16
  | .oct => 8
  | .bin => 2

def Radix.text : Radix → Text
  | .dec => []
  | .hex => "0x".toList
  | .oct => "0o".toList
  | .bin => "0b".toList

/-- An integer literal: the digits with their separators, and maybe a type. -/
structure Literal where
  radix : Radix
  body : Text
  suffix : Option Ty
  valid : ∀ c ∈ body, c = '_' ∨ digitVal c < radix.base
  some_digit : body.filter (· ≠ '_') ≠ []
  digit_first : radix = .dec → body.head? ≠ some '_'

def Literal.digits (l : Literal) : Text := l.body.filter (· ≠ '_')

def Literal.text (l : Literal) : Text :=
  l.radix.text ++ l.body ++ (l.suffix.map Ty.text).getD []

def Literal.value (l : Literal) : Nat := numeral l.radix.base (l.digits.map digitVal)

/-- A decimal literal of more than one digit whose first is 0. -/
def Literal.Octal (l : Literal) : Prop :=
  l.radix = .dec ∧ l.digits.head? = some '0' ∧ 1 < l.digits.length

/-- What C makes of the digits of such a literal. -/
def Literal.asOctal (l : Literal) : Nat := numeral 8 (l.digits.map digitVal)

/-! ## Expressions -/

/-- A text without blanks, bars and parentheses. -/
structure Clean (t : Text) : Prop where
  ne_nil : t ≠ []
  plain : ∀ c ∈ t, isWhite c = false ∧ c ≠ '|' ∧ c ≠ '(' ∧ c ≠ ')'

@[ext]
structure Ident where
  text : Text
  clean : Clean text
  word : ∀ c ∈ text, c ≠ ':' ∧ c ≠ '+' ∧ c ≠ '-'
  first : ∀ c ∈ text.head?, c.isDigit = false

abbrev Blanks := {b : Text // Blank b}

/-- The space around `as`. -/
abbrev Gap := {b : Text // Blank b ∧ b ≠ []}

/-- A type's name or path. -/
abbrev TyName := {t : Text // Clean t}

inductive Wrapper
  | int | ioctl
  deriving DecidableEq, Repr

def Wrapper.text : Wrapper → Text
  | .int => "u32_cast_int(".toList
  | .ioctl => "u32_cast_ioctl(".toList

/-- An expression, with the blanks it is written with. A chain of `|` is its first operand and the
rest; where the chain is bracketed does not matter for its value. -/
inductive Expr
  | lit (l : Literal)
  | ident (crate : Bool) (x : Ident)
  | call (w : Wrapper) (before : Blanks) (arg : Expr) (after : Blanks)
  | cast (e : Expr) (before after : Gap) (name : TyName) (ty : Ty)
  | or (e : Expr) (before after : Blanks) (rest : Expr)

def Expr.text : Expr → Text
  | .lit l => l.text
  | .ident crate x => (if crate then "crate::".toList else []) ++ x.text
  | .call w b arg b' => w.text ++ (b.val ++ arg.text ++ b'.val) ++ [')']
  | .cast e b b' name _ => e.text ++ (b.val ++ 'a' :: 's' :: (b'.val ++ name.val))
  | .or e b b' rest => (e.text ++ b.val) ++ '|' :: (b'.val ++ rest.text)

/-- `as` binds tighter than `|`, and `|` takes its first operand from the front. -/
def Expr.IsOperand : Expr → Prop
  | .or .. => False
  | _ => True

/-! ## Meaning -/

/-- What the names stand for: a declared type and an expression. -/
abbrev Defs := Text → Option (Ty × Expr)

/-- The type of an operand of a cast to `T`. A literal with no suffix takes the target's. -/
def operandTy (defs : Defs) (T : Ty) : Expr → Ty
  | .lit l => l.suffix.getD T
  | .ident _ x => ((defs x.text).map Prod.fst).getD T
  | .call .. => .i32
  | .cast _ _ _ _ U => U
  | .or .. => T

/-- The expressions of type `T`. -/
inductive Typed (defs : Defs) : Ty → Expr → Prop
  | lit {T l} : (∀ U ∈ l.suffix, U = T) → Typed defs T (.lit l)
  | ident {T crate x e} : defs x.text = some (T, e) → Typed defs T (.ident crate x)
  | call {w b arg b'} : Typed defs .u32 arg → Typed defs .i32 (.call w b arg b')
  | cast {T e b b' name} : e.IsOperand → Typed defs (operandTy defs T e) e →
      Typed defs T (.cast e b b' name T)
  | or {T e b b' rest} : e.IsOperand → Typed defs T e → Typed defs T rest →
      Typed defs T (.or e b b' rest)

/-- The value of an expression of type `T`. A literal beyond its type wraps, which libc allows. -/
inductive Denotes (defs : Defs) : Ty → Expr → Int → Prop
  | lit {T l} : (∀ U ∈ l.suffix, U = T) → Denotes defs T (.lit l) (T.wrap l.value)
  | ident {T crate x e v} : defs x.text = some (T, e) → Denotes defs T e v →
      Denotes defs T (.ident crate x) v
  | call {w b arg b' v} : Denotes defs .u32 arg v →
      Denotes defs .i32 (.call w b arg b') (Ty.i32.wrap v)
  | cast {T e b b' name v} : Denotes defs (operandTy defs T e) e v →
      Denotes defs T (.cast e b b' name T) (T.wrap v)
  | or {T e b b' rest v w} : Denotes defs T e v → Denotes defs T rest w →
      Denotes defs T (.or e b b' rest) (T.or v w)

/-- An expression that another one is directly made of, through the definitions of its names. -/
inductive Sub (defs : Defs) : Ty × Expr → Ty × Expr → Prop
  | first {T e b b' rest} : Sub defs (T, .or e b b' rest) (T, e)
  | rest {T e b b' rest} : Sub defs (T, .or e b b' rest) (T, rest)
  | arg {T w b arg b'} : Sub defs (T, .call w b arg b') (.u32, arg)
  | operand {T e b b' name U} : Sub defs (T, .cast e b b' name U) (operandTy defs U e, e)
  | named {T crate x d} : defs x.text = some d → Sub defs (T, .ident crate x) d

/-- The parts of an expression, itself included. -/
abbrev Part (defs : Defs) : Ty × Expr → Ty × Expr → Prop := Relation.ReflTransGen (Sub defs)

/-! ## The crate -/

/-- A line that defines a constant; the type's text is what is between `:` and `=`. -/
def Spells (line : Text) (x : Ident) (e : Expr) : Prop :=
  ∃ (b₁ b₂ b₃ b₄ b₅ b₆ : Blanks) (ty : Text), '=' ∉ ty ∧
    line = b₁.val ++ ("pub const ".toList ++ ((b₂.val ++ x.text ++ b₃.val) ++
      ':' :: (ty ++ '=' :: (b₄.val ++ e.text ++ b₅.val ++ [';'])))) ++ b₆.val

/-- The lines that are scraped, and what they define. Lines that define something else, or nothing,
may be among them; of two definitions of a name the first counts. -/
structure Crate where
  lines : List Text
  defs : Defs
  named : ∀ line ∈ lines, ∀ d, scrapeLine line = some d → ∃ x : Ident, x.text = d.1
  spelled : ∀ (x : Ident) T e, defs x.text = some (T, e) → ∃ before line after,
    lines = before ++ line :: after ∧ Spells line x e ∧
      ∀ m ∈ before, ∀ d, scrapeLine m = some d → d.1 ≠ x.text
  typed : ∀ x T e, defs x = some (T, e) → Typed defs T e

def Crate.consts (c : Crate) : Consts := scrapeConsts c.lines fun _ => none

/-- Where `eval` returns a value of an expression, the expression denotes it. -/
def Right (c : Crate) (T : Ty) (e : Expr) : Prop :=
  ∀ v, eval c.consts e.text 0 = some v → Denotes c.defs T e v.toInt

/-- So it is for an expression and for all that it is made of. -/
def Sound (c : Crate) (T : Ty) (e : Expr) : Prop :=
  ∀ U p, Part c.defs (T, e) (U, p) → Right c U p

/-- What one step of an expression needs, so that `eval` reads it as Rust does. -/
def Plain (defs : Defs) (T : Ty) : Expr → Prop
  | .lit l => (l.Octal → T.wrap l.value = l.asOctal) ∧ (¬ l.Octal → T.Holds l.value)
  | .ident crate x => ∀ n, number x.text = some n → Denotes defs T (.ident crate x) n.toInt
  | .cast e _ _ _ U => ∀ v, Denotes defs (operandTy defs U e) e v → U.Holds v
  | _ => True

/-- A literal that `eval` takes: no type at its end, not a binary one, and not too large. -/
structure Literal.Taken (l : Literal) : Prop where
  suffix : l.suffix = none
  radix : l.radix ≠ .bin
  octal : l.Octal → (∀ c ∈ l.digits, digitVal c < 8) ∧ l.asOctal < 2 ^ 63
  small : ¬ l.Octal → l.value < 2 ^ 63

/-- The first `as` of a cast has a space on each side. -/
def Tight (b b' : Text) : Prop := b.getLast? = some ' ' ∧ b'.head? = some ' '

instance (b b' : Text) : Decidable (Tight b b') := inferInstanceAs (Decidable (_ ∧ _))

/-- The expressions that `eval` does not refuse, with so many calls nested. -/
inductive Legible (defs : Defs) : Nat → Expr → Prop
  | lit {n l} : l.Taken → Legible defs (n + 1) (.lit l)
  | digits {n crate x} : number x.text ≠ none → Legible defs (n + 1) (.ident crate x)
  | ident {n crate x T e} : number x.text = none → defs x.text = some (T, e) → Legible defs n e →
      Legible defs (n + 1) (.ident crate x)
  | call {n w b arg b'} : '|' ∉ arg.text → Legible defs n arg →
      Legible defs (n + 1) (.call w b arg b')
  | castLit {n l b b' name T} : Tight b.val b'.val → Legible defs n (.lit l) →
      Legible defs n (.cast (.lit l) b b' name T)
  | castIdent {n crate x b b' name T} : Tight b.val b'.val → Legible defs n (.ident crate x) →
      Legible defs n (.cast (.ident crate x) b b' name T)
  | recast {n e b₁ b₂ name₁ T₁ b b' name T} : Legible defs n (.cast e b₁ b₂ name₁ T₁) →
      Legible defs n (.cast (.cast e b₁ b₂ name₁ T₁) b b' name T)
  | or {n e b b' rest} : '|' ∉ e.text → Legible defs n e → Legible defs n rest →
      Legible defs (n + 1) (.or e b b' rest)

/-- Every part that `eval` does not refuse is plain. -/
def Careful (defs : Defs) (T : Ty) (e : Expr) : Prop :=
  ∀ U p, Part defs (T, e) (U, p) → Legible defs 9 p → Plain defs U p

end ApeShim.GenShim
