import TestImpact.Java.Malformed
import TestImpact.Java.Modifier
import TestImpact.Name

/-!
# Package and imports

The statements that a source starts with. `header` reads them and gives the tokens behind them.
-/

namespace TestImpact.Java

/-- An import statement; an import on demand ends in `.*`. -/
structure Import where
  name : String
  isStatic : Bool
deriving DecidableEq, Repr

namespace Import

/-- The package, or class, of which an import on demand takes all members. -/
def onDemand? (i : Import) : Option String := dropEnd? ".*" i.name

/-- The class that an import names: for a static import the class that owns the members. -/
def class? (i : Import) : Option String :=
  match i.onDemand?, i.isStatic with
  | some owner, true => some owner
  | some _, false => none
  | none, true => let owner := packageOf i.name; if owner.isEmpty then none else some owner
  | none, false => some i.name

end Import

/-- What a source states in front of its declarations. -/
structure Header where
  package : String
  imports : List Import
deriving DecidableEq, Repr

/-- The text up to the next `;` and what follows it. -/
def untilSemicolon? (ts : List Token) : Option (String × List Token) :=
  match ts.dropWhile (· ≠ .mark ';') with
  | [] => none
  | _ :: rest => some (joinTokens (ts.takeWhile (· ≠ .mark ';')), rest)

/-- What follows a semicolon is shorter than the list. -/
theorem length_of_untilSemicolon? {ts rest : List Token} {s : String}
    (h : untilSemicolon? ts = some (s, rest)) : rest.length < ts.length := by
  unfold untilSemicolon? at h
  split at h
  · cases h
  · next hd =>
    cases h
    have := (List.dropWhile_sublist (· ≠ Token.mark ';') (l := ts)).length_le
    rw [hd] at this
    exact this

/-- What a statement in front of the declarations is about. -/
inductive Statement
  /-- A lone semicolon. -/
  | empty
  | package
  | importing (isStatic : Bool)
deriving DecidableEq, Repr

/-- The statement that a list starts with and what follows its leading words. Annotations may stand
in front of a package statement. -/
def statement? (ts : List Token) : Option (Statement × List Token) :=
  match ts with
  | .mark ';' :: r => some (.empty, r)
  | .mark '@' :: _ =>
    match dropModifiers ts with
    | .word "package" :: r => some (.package, r)
    | _ => none
  | .word "package" :: r => some (.package, r)
  | .word "import" :: .word "static" :: r => some (.importing true, r)
  | .word "import" :: r => some (.importing false, r)
  | _ => none

/-- What follows the words of a statement is shorter than the list. -/
theorem length_of_statement? {s : Statement} {ts r : List Token}
    (h : statement? ts = some (s, r)) : r.length < ts.length := by
  unfold statement? at h
  split at h
  · cases h; simp
  · next t =>
    split at h
    · next hd =>
      have := (dropModifiers_suffix (.mark '@' :: t)).length_le
      rw [hd] at this
      cases h
      exact this
    · cases h
  · cases h; simp
  · cases h; simp only [List.length_cons]; omega
  · cases h; simp
  · cases h

/-- The fault of a statement without a semicolon. -/
def Statement.unterminated : Statement → Malformed
  | importing _ => .unterminatedImport
  | _ => .unterminatedPackage

/-- The header with one more statement about `name`; the last package statement counts. -/
def Header.add (read : Header) (name : String) : Statement → Header
  | .empty => read
  | .package => { read with package := name }
  | .importing isStatic => { read with imports := read.imports ++ [⟨name, isStatic⟩] }

/-- Reads on behind the statements of `read`. -/
def headerFrom (read : Header) (ts : List Token) : Except Malformed (Header × List Token) :=
  match h : statement? ts with
  | none => .ok (read, ts)
  | some (.empty, r) =>
    have := length_of_statement? h
    headerFrom read r
  | some (s, r) =>
    match hs : untilSemicolon? r with
    | none => .error s.unterminated
    | some (name, rest) =>
      have := length_of_statement? h
      have := length_of_untilSemicolon? hs
      headerFrom (read.add name s) rest
termination_by ts.length

/-- The package and the imports of a source, and the tokens behind them. -/
def header (ts : List Token) : Except Malformed (Header × List Token) := headerFrom ⟨"", []⟩ ts

end TestImpact.Java
