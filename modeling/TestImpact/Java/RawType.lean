import TestImpact.Java.Keyword
import TestImpact.Name
import TestImpact.Text.Blank

/-!
# Types as they are written

A raw type is a type's text without blanks between its tokens, such as `Map<K,List<a.b.V>>[]`. Its
head is the name in front of the type arguments (`typeHead`); its arguments are the simple names
inside them at any depth (`typeArguments`).
-/

namespace TestImpact.Java

/-- A letter, `_` or `$`. -/
def isNameStart (c : Char) : Bool := c.isAlpha || c = '_' || c = '$'

/-- A letter, a digit, `_` or `$`. -/
def isNamePart (c : Char) : Bool := c.isAlphanum || c = '_' || c = '$'

/-- The reversed text without the ellipses it starts with. -/
def dropEllipses : List Char → List Char
  | '.' :: '.' :: '.' :: r => dropEllipses r
  | r => r

/-- The reversed text without the pairs of brackets it starts with. -/
def dropBrackets : List Char → List Char
  | ']' :: '[' :: r => dropBrackets r
  | r => r

/-- The name of a raw type: what stands in front of the type arguments, without an ellipsis, array
brackets and blanks around it. -/
def typeHead (raw : String) : String :=
  let front := raw.toList.takeWhile (· ≠ '<')
  .ofList (trimBlanks (dropBrackets (dropEllipses front.reverse)).reverse)

/-- The last segments of the dotted names in a text, from left to right. `seen` holds the characters
of the segment at hand, the last one first. -/
def lastSegments (seen : List Char) : List Char → List String
  | [] => if seen.isEmpty then [] else [.ofList seen.reverse]
  | c :: r =>
    if seen.isEmpty then
      if isNameStart c then lastSegments [c] r else lastSegments [] r
    else if isNamePart c then lastSegments (c :: seen) r
    else if c = '.' && r.head?.any isNameStart then lastSegments [] r
    else .ofList seen.reverse :: lastSegments [] r

/-- The simple names in the argument list of a raw type, at any depth. -/
def typeArguments (raw : String) : List String :=
  (lastSegments [] (raw.toList.dropWhile (· ≠ '<'))).filter (!isKeyword ·)

end TestImpact.Java
