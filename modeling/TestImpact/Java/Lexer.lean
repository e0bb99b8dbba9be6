import TestImpact.Java.Malformed
import TestImpact.Java.RawType
import TestImpact.Java.Token

/-!
# Reading tokens

`tokens` reads a source from left to right. Blanks and comments give no token; strings, characters,
text blocks and numbers give a `Token.literal` whatever they hold. A character beyond ASCII is a
part of a word. Main statement: every step leaves less text than it was given (`length_step`).
-/

namespace TestImpact.Java

/-- Space, tab, line feed, form feed and carriage return. -/
def isSpace (c : Char) : Bool := c = ' ' || c = '\t' || c = '\n' || c = '\x0c' || c = '\r'

/-- A character that a word may start with. -/
def isWordStart (c : Char) : Bool := isNameStart c || 0x80 ≤ c.toNat

/-- A character that a word may go on with. -/
def isWordPart (c : Char) : Bool := isNamePart c || 0x80 ≤ c.toNat

/-- What follows the end of a block comment. -/
def afterBlockComment? : List Char → Option (List Char)
  | [] => none
  | '*' :: '/' :: r => some r
  | _ :: r => afterBlockComment? r

/-- What follows the closing quote `q` of a literal on one line. A backslash takes the character
behind it, also a line feed, into the literal. -/
def afterQuote? (q : Char) : List Char → Option (List Char)
  | [] => none
  | ['\\'] => none
  | '\\' :: _ :: r => afterQuote? q r
  | c :: r => if c = '\n' then none else if c = q then some r else afterQuote? q r

/-- What follows the three quotes that close a text block. -/
def afterTextBlock? : List Char → Option (List Char)
  | [] => none
  | ['\\'] => none
  | '\\' :: _ :: r => afterTextBlock? r
  | '"' :: '"' :: '"' :: r => some r
  | _ :: r => afterTextBlock? r

/-- What follows a number: letters, digits, `_`, and dots in front of a digit belong to it. -/
def afterNumber : List Char → List Char
  | [] => []
  | c :: r =>
    if c.isAlphanum || c = '_' || c = '.' && r.head?.any Char.isDigit then afterNumber r else c :: r

/-- Gives a literal if the text behind it is known, else the fault. -/
def literalBefore (fault : Malformed) : Option (List Char) →
    Except Malformed (Option Token × List Char)
  | some rest => .ok (some .literal, rest)
  | none => .error fault

/-- Reads one blank, comment or token from a text of the first character `c`. -/
def step (c : Char) (r : List Char) : Except Malformed (Option Token × List Char) :=
  if isSpace c then .ok (none, r)
  else if c = '/' ∧ r.head? = some '/' then .ok (none, r.dropWhile (· ≠ '\n'))
  else if c = '/' ∧ r.head? = some '*' then
    match afterBlockComment? r.tail with
    | some rest => .ok (none, rest)
    | none => .error .unterminatedBlockComment
  else if c = '"' ∧ r.take 2 = ['"', '"'] then
    literalBefore .unterminatedTextBlock (afterTextBlock? (r.drop 2))
  else if c = '"' then literalBefore .unterminatedString (afterQuote? '"' r)
  else if c = '\'' then literalBefore .unterminatedChar (afterQuote? '\'' r)
  else if c.isDigit then .ok (some .literal, afterNumber r)
  else if isWordStart c then
    .ok (some (.word (.ofList (c :: r.takeWhile isWordPart))), r.dropWhile isWordPart)
  else if c = '.' ∧ r.take 2 = ['.', '.'] then .ok (some .ellipsis, r.drop 2)
  else if c = ':' ∧ r.head? = some ':' then .ok (some .doubleColon, r.tail)
  else .ok (some (.mark c), r)

/-! ## Every step consumes a character -/

/-- What follows a comment is no longer than the text. -/
theorem length_afterBlockComment? {cs r : List Char} (h : afterBlockComment? cs = some r) :
    r.length ≤ cs.length := by
  fun_induction afterBlockComment? cs <;> simp_all <;> omega

/-- What follows a quoted literal is no longer than the text. -/
theorem length_afterQuote? {q : Char} {cs r : List Char} (h : afterQuote? q cs = some r) :
    r.length ≤ cs.length := by
  fun_induction afterQuote? q cs <;> simp_all <;> omega

/-- What follows a text block is no longer than the text. -/
theorem length_afterTextBlock? {cs r : List Char} (h : afterTextBlock? cs = some r) :
    r.length ≤ cs.length := by
  fun_induction afterTextBlock? cs <;> simp_all <;> omega

/-- What follows a number is no longer than the text. -/
theorem length_afterNumber (cs : List Char) : (afterNumber cs).length ≤ cs.length := by
  fun_induction afterNumber cs <;> simp_all; omega

/-- A literal that is read ends where its scanner has found the end. -/
theorem eq_some_of_literalBefore {fault : Malformed} {o : Option (List Char)} {t : Option Token}
    {rest : List Char} (h : literalBefore fault o = .ok (t, rest)) : o = some rest := by
  cases o with
  | none => cases h
  | some r => cases h; rfl

/-- What follows a step is no longer than the text. -/
theorem length_step {c : Char} {r rest : List Char} {t : Option Token}
    (h : step c r = .ok (t, rest)) : rest.length ≤ r.length := by
  rw [step] at h
  split at h
  · cases h; exact Nat.le_refl _
  split at h
  · cases h; exact (List.dropWhile_sublist _).length_le
  split at h
  · split at h
    · next hb => cases h; exact Nat.le_trans (length_afterBlockComment? hb) (by simp)
    · cases h
  split at h
  · exact Nat.le_trans (length_afterTextBlock? (eq_some_of_literalBefore h)) (by simp)
  split at h
  · exact length_afterQuote? (eq_some_of_literalBefore h)
  split at h
  · exact length_afterQuote? (eq_some_of_literalBefore h)
  split at h
  · cases h; exact length_afterNumber _
  split at h
  · cases h; exact (List.dropWhile_sublist _).length_le
  split at h
  · cases h; simp
  split at h
  · cases h; simp
  · cases h; exact Nat.le_refl _

/-- The tokens of a text, or the first fault in it. -/
def tokens : List Char → Except Malformed (List Token)
  | [] => .ok []
  | c :: r =>
    match h : step c r with
    | .error e => .error e
    | .ok (t, rest) =>
      have := length_step h
      (tokens rest).map (t.toList ++ ·)
termination_by cs => cs.length
decreasing_by simp only [List.length_cons]; omega

end TestImpact.Java
