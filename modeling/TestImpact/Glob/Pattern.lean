import TestImpact.Glob.Reader
import TestImpact.Text.Decimal
import TestImpact.Text.Pieces

/-!
# Path patterns

A pattern selects the paths that its expression accepts, with one exception: a pattern that asks for
the last name of a path or for its ending takes `..` for no name. Patterns can be used together if
no expression that has to be tried is nested too deep.
-/

namespace TestImpact.Glob

/-- What a pattern asks of a path. -/
inductive Basis
  /-- A given text at its start, at its end or as the whole. -/
  | text
  /-- A last name, or its ending, that is given. -/
  | name
  /-- A given ending of the last name, and an expression. -/
  | ending
  /-- An expression alone. -/
  | expression
deriving DecidableEq, Repr

/-- A pattern, given by its parts. -/
structure Pattern where
  parts : List Part
deriving Repr

/-- The characters that parts stand for, if each of them stands for one. -/
def chars? (parts : List Part) : Option (List Char) := parts.mapM Part.char?

namespace Pattern

/-- The pattern of the given text. -/
def ofText? (s : String) : Except PatternError Pattern := (read? s).map mk

/-- The pattern gives the start of a path, its end behind a slash, or the whole of it. -/
def givesText (p : Pattern) : Bool :=
  match p.parts with
  | [] => false
  | .symbol .leading :: r => (chars? r).any (·.contains '/')
  | parts =>
    match parts.getLast? with
    | some (.symbol .trailing) => (chars? parts.dropLast).isSome
    | _ => (chars? parts).isSome

/-- The pattern gives the last name of a path, or what follows the last dot in it. -/
def givesName (p : Pattern) : Bool :=
  match p.parts with
  | .symbol .leading :: .symbol .anyBytes :: .symbol (.char '.') :: r =>
    (chars? r).any fun cs => !cs.contains '.' && !cs.contains '/'
  | .symbol .leading :: r => !r.isEmpty && (chars? r).any fun cs => !cs.contains '/'
  | _ => false

/-- The pattern ends in a dot and characters of a name. -/
def givesEnding (p : Pattern) : Bool :=
  let isBoundary (c : Option Char) : Bool := c.all fun c => c = '.' || c = '/'
  (p.parts.reverse.map Part.char?).find? isBoundary = some (some '.')

/-- What the pattern asks of a path. -/
def basis (p : Pattern) : Basis :=
  if p.givesText then .text
  else if p.givesName then .name
  else if p.givesEnding then .ending
  else .expression

/-- The expression of a pattern. Two stars alone stand for every path. -/
def expr (p : Pattern) : ByteExpr :=
  match p.parts with
  | [.symbol .leading] => .anything
  | parts => partsExpr parts

/-- The pattern selects a path whose names stand between slashes. -/
def selects (p : Pattern) (path : String) : Bool :=
  let asksForName := p.basis = .name || p.basis = .ending
  !(asksForName && afterLast '/' path.toList = ['.', '.']) && p.expr.accepts (Utf8.encode path)

end Pattern

/-- The path, with `/` for every backslash, is selected by one of the patterns. -/
def selects (patterns : List Pattern) (path : String) : Bool :=
  patterns.any (·.selects (replaceChar '\\' '/' path))

/-! ## Deep patterns -/

/-- Why patterns that can be read cannot be used together. -/
inductive NestingError
  /-- The expression of a pattern that gives an ending is nested too deep. -/
  | ending (text : String)
  /-- The expression at the index is nested too deep, of those that patterns ask for alone. -/
  | expression (index : Nat)
deriving DecidableEq, Repr

/-- The wording of a fault in patterns that can be read. -/
def NestingError.message : NestingError → String
  | ending text => "error parsing glob '" ++ text ++ "': error parsing pattern 0"
  | expression n => "error parsing pattern " ++ decimal n

/-- The greatest nesting of an expression. -/
def maxNesting : Nat := 250

/-- Refuses patterns whose expressions are nested too deep. Those that give an ending come first. -/
def checkNesting (patterns : List Pattern) : Except NestingError Unit :=
  let tooDeep (p : Pattern) : Bool := maxNesting < partsNesting p.parts
  match (patterns.filter (·.basis = .ending)).find? tooDeep with
  | some p => .error (.ending ("(?-u)^" ++ partsText p.parts ++ "$"))
  | none =>
    match (patterns.filter (·.basis = .expression)).findIdx? tooDeep with
    | some n => .error (.expression n)
    | none => .ok ()

end TestImpact.Glob
