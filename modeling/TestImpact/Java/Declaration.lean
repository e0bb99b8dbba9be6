import TestImpact.Java.Signature
import TestImpact.Name

/-!
# Declared types

The kinds of types that a source declares, and the reading of a declaration's header: its name, the
components of a record, and the types it extends or implements.
-/

namespace TestImpact.Java

/-- The kinds of declared types. -/
inductive DeclKind
  | classType
  | interfaceType
  | enumType
  | recordType
  | annotationType
deriving DecidableEq, Repr

/-- A type that a source declares, on its own or inside another one. -/
structure TypeDecl where
  name : String
  /-- The name relative to the package, `Outer.Inner` for an inner type. -/
  qualified : String
  kind : DeclKind
  /-- The raw types that it extends or implements. -/
  supertypes : List String
deriving DecidableEq, Repr

/-- The kind of the declaration that a list without modifiers starts with, and the list from the
declared name on. `record` starts a declaration only if its name is followed by components or type
parameters. -/
def declaration? : List Token → Option (DeclKind × String × List Token)
  | .word "class" :: .word n :: r => some (.classType, n, r)
  | .word "interface" :: .word n :: r => some (.interfaceType, n, r)
  | .word "enum" :: .word n :: r => some (.enumType, n, r)
  | .word "record" :: .word n :: .mark '(' :: r => some (.recordType, n, .mark '(' :: r)
  | .word "record" :: .word n :: .mark '<' :: r => some (.recordType, n, .mark '<' :: r)
  | .mark '@' :: .word "interface" :: .word n :: r => some (.annotationType, n, r)
  | _ => none

/-- A word that starts a list of supertypes. -/
def startsSupertypes (t : Token) : Bool := t = .word "extends" || t = .word "implements"

/-- A word that ends a list of supertypes. -/
def endsSupertypes (t : Token) : Bool := startsSupertypes t || t = .word "permits"

/-- The raw types of the `extends` and `implements` lists in a declaration's header. -/
def supertypes : List Token → List String
  | [] => []
  | t :: ts =>
    if startsSupertypes t then
      have := (List.dropWhile_sublist (fun t => !endsSupertypes t) (l := ts)).length_le
      ((topLevelParts (ts.takeWhile fun t => !endsSupertypes t)).map joinTokens).filter (· ≠ "") ++
        supertypes (ts.dropWhile fun t => !endsSupertypes t)
    else supertypes ts
termination_by ts => ts.length
decreasing_by all_goals simp only [List.length_cons]; omega

/-- The raw types of a record's components, from the header behind the type parameters. -/
def componentTypes (kind : DeclKind) (header : List Token) : List String :=
  match kind, header with
  | .recordType, .mark '(' :: r => parameterTypes (insideParentheses r)
  | _, _ => []

/-- The header behind a record's components. -/
def afterComponents (kind : DeclKind) (header : List Token) : List Token :=
  if kind = .recordType then dropBracketed '(' ')' header else header

/-- The declaration of `name` inside `outer` with this header, and its component types. -/
def readHeader (outer : String) (kind : DeclKind) (name : String) (header : List Token) :
    TypeDecl × List String :=
  let header := dropBracketed '<' '>' header
  ({ name, kind, qualified := qualify outer name
     supertypes := supertypes (afterComponents kind header) }, componentTypes kind header)

end TestImpact.Java
