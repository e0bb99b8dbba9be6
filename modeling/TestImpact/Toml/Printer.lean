import TestImpact.Text.Decimal
import TestImpact.Text.Hexadecimal

/-!
# Writing TOML

A string is written in the first of four forms that holds it without escapes: basic or literal on
one line, basic or literal over lines. A string that fits none is written with escapes. Lists of
more than one item have a line for each.
-/

namespace TestImpact.Toml

/-- A character that no string form holds without an escape, line feeds aside. -/
def needsCode (c : Char) : Bool :=
  (c.toNat < 0x20 && c ≠ '\t' && c ≠ '\n') || c = '\x7f'

/-- The length of the longest run of `c`, of which `run` have just been passed. -/
def longestRun (c : Char) (run : Nat) : List Char → Nat
  | [] => run
  | d :: r => if d = c then longestRun c (run + 1) r else max run (longestRun c 0 r)

/-- The escape of a control character by its code. -/
def codeEscape (c : Char) : List Char :=
  ['\\', 'u', '0', '0', Hexadecimal.upper (c.toNat / 16), Hexadecimal.upper (c.toNat % 16)]

/-- The characters between the quotes of a basic string. Over lines, line feeds stay as they are and
of each three quotes in a run only the third is escaped; `quotes` of them have just been passed. -/
def basicBody (overLines : Bool) (quotes : Nat) : List Char → List Char
  | [] => []
  | '"' :: r =>
    if overLines && quotes < 2 then '"' :: basicBody overLines (quotes + 1) r
    else '\\' :: '"' :: basicBody overLines 0 r
  | c :: r =>
    (match c with
      | '\\' => ['\\', '\\']
      | '\x08' => ['\\', 'b']
      | '\t' => ['\\', 't']
      | '\n' => if overLines then ['\n'] else ['\\', 'n']
      | '\x0c' => ['\\', 'f']
      | '\r' => ['\\', 'r']
      | c => if needsCode c then codeEscape c else [c]) ++ basicBody overLines 0 r

/-- A text over lines between tripled quotes. A text with a line feed starts on a line of its
own. -/
def tripled (quote : Char) (cs body : List Char) : List Char :=
  let quotes := List.replicate 3 quote
  quotes ++ (if cs.contains '\n' then ['\n'] else []) ++ body ++ quotes

/-- The written form of a string. -/
def writeString (s : String) : String :=
  let cs := s.toList
  let hasLines := cs.contains '\n'
  let hasCodes := cs.any needsCode
  let doubles := longestRun '"' 0 cs
  let singles := longestRun '\'' 0 cs
  let escapes := hasCodes || cs.contains '\\'
  let onLine := '"' :: (basicBody false 0 cs ++ ['"'])
  let overLines := tripled '"' cs (basicBody true 0 cs)
  .ofList <|
    if !escapes && !hasLines && doubles = 0 then onLine
    else if !hasCodes && !hasLines && singles = 0 then '\'' :: (cs ++ ['\''])
    else if !escapes && doubles ≤ 2 then overLines
    else if !hasCodes && singles ≤ 2 then tripled '\'' cs cs
    else if hasLines then overLines
    else onLine

/-- The written form of a name. -/
def writeKey (s : String) : String :=
  let cs := s.toList
  let hasCodes := cs.any fun c => needsCode c || c = '\n'
  let basic := '"' :: (basicBody false 0 cs ++ ['"'])
  .ofList <|
    if !cs.isEmpty && cs.all (fun c => c.isAlphanum || c = '_' || c = '-') then cs
    else if !hasCodes && !cs.contains '\\' && !cs.contains '"' then basic
    else if !hasCodes && !cs.contains '\'' then '\'' :: (cs ++ ['\''])
    else basic

/-- The written form of a list of strings. -/
def writeList : List String → String
  | [] => "[]"
  | [s] => "[" ++ writeString s ++ "]"
  | items => "[\n" ++ String.join (items.map fun s => "    " ++ writeString s ++ ",\n") ++ "]"

/-- The written form of a truth value. -/
def writeBool (b : Bool) : String := if b then "true" else "false"

/-- The decimal digits of an integer. -/
def writeInt (n : Int) : String :=
  (if n < 0 then "-" else "") ++ decimal n.natAbs

/-- The line that gives a name a value. -/
def writeEntry (key value : String) : String := writeKey key ++ " = " ++ value ++ "\n"

end TestImpact.Toml
