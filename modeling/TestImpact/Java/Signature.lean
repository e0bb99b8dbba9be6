import TestImpact.Java.Modifier

/-!
# Fields and signatures

The raw types that a field, a method or a parameter is declared with, read from the tokens of the
declaration without its annotations and modifiers.
-/

namespace TestImpact.Java

/-- The raw type in front of the name that a declaration ends in, array brackets after the name
aside. -/
def typeBeforeName? (ts : List Token) : Option (List Token) :=
  match (dropArrayMarks ts).reverse with
  | .word _ :: type => some type.reverse
  | _ => none

/-- The raw type of a parameter: `List<Foo>` for `@Valid final List<Foo> items`, `String` for
`String... args`. -/
def parameterType? (ts : List Token) : Option String := do
  let type ← typeBeforeName? (dropModifiers ts)
  let type := if type.getLast? = some .ellipsis then type.dropLast else type
  if type.isEmpty then none else some (joinTokens type)

/-- The raw types of a parameter list. -/
def parameterTypes (ts : List Token) : List String := (topLevelParts ts).filterMap parameterType?

/-- The raw type of a field, of which only the first name is read. A statement that starts with a
reserved word is no field. -/
def fieldType? (ts : List Token) : Option String := do
  let first ← (topLevelParts (ts.takeWhile (· ≠ .mark '='))).head?
  let type ← typeBeforeName? first
  match type with
  | [] => none
  | .word w :: _ => if isReserved w then none else some (joinTokens type)
  | _ => some (joinTokens type)

/-- What follows the mark `c` that closes the mark `o` the list starts with, or the whole list if it
starts otherwise. -/
def dropBracketed (o c : Char) : List Token → List Token
  | [] => []
  | t :: ts => if t = .mark o then afterClose o c ts else t :: ts

/-- What stands inside an argument list whose opening parenthesis has been read; up to the end of
the list if it is never closed. -/
def insideParentheses (ts : List Token) : List Token :=
  match splitClose '(' ')' 0 ts with
  | some (inside, _) => inside
  | none => ts

/-- The return type and the parameter types of a method. A constructor and a `void` method have no
return type. -/
def signature (ts : List Token) : Option String × List String :=
  let ts := dropBracketed '<' '>' ts
  match (ts.takeWhile (· ≠ .mark '(')).reverse, ts.dropWhile (· ≠ .mark '(') with
  | .word _ :: type, _ :: params =>
    let returns := match type.reverse with
      | [] => none
      | first :: more => if first = .word "void" then none else some (joinTokens (first :: more))
    (returns, parameterTypes (insideParentheses params))
  | _, _ => (none, [])

end TestImpact.Java
