/-!
# Why a Java source cannot be read
-/

namespace TestImpact.Java

/-- What is wrong with a source that cannot be read. -/
inductive Malformed
  | unterminatedBlockComment
  | unterminatedString
  | unterminatedChar
  | unterminatedTextBlock
  | unterminatedPackage
  | unterminatedImport
  /-- The text ends inside a body, or inside parentheses or brackets. -/
  | unexpectedEnd
  /-- A closing brace outside every body. -/
  | unexpectedBrace
  /-- An opening brace of a skipped block that nothing closes. -/
  | unclosedBlock
  | unbalancedParenthesis
  | unbalancedBracket
deriving DecidableEq, Repr

/-- The wording of a fault. -/
def Malformed.message : Malformed → String
  | unterminatedBlockComment => "unterminated block comment"
  | unterminatedString => "unterminated string literal"
  | unterminatedChar => "unterminated char literal"
  | unterminatedTextBlock => "unterminated text block"
  | unterminatedPackage => "unterminated package statement"
  | unterminatedImport => "unterminated import statement"
  | unexpectedEnd => "unbalanced braces: unexpected end of file"
  | unexpectedBrace => "unbalanced braces: unexpected '\x7d'"
  | unclosedBlock => "unbalanced braces: unclosed block"
  | unbalancedParenthesis => "unbalanced ')'"
  | unbalancedBracket => "unbalanced ']'"

end TestImpact.Java
