import TestImpact.Analysis
import TestImpact.Text.Decimal
import TestImpact.Text.Hexadecimal

/-!
# Reports

The outcome of an analysis as a text for people, as JSON, and as arguments for a test task.
-/

namespace TestImpact

/-- The forms of a report. -/
inductive ReportFormat
  | text
  | json
  /-- A line of arguments for each test. -/
  | gradle
deriving DecidableEq, Repr

namespace ReportFormat

/-- The name of a form. -/
def name : ReportFormat → String
  | text => "text"
  | json => "json"
  | gradle => "gradle"

/-- The form of the given name. -/
def ofName? (s : String) : Option ReportFormat := [text, json, gradle].find? (·.name = s)

end ReportFormat

namespace Report

/-- The report for people. -/
def text (i : Impact) : String :=
  let head := "changed: " ++ decimal i.changedFiles.size ++ " files (" ++
    decimal i.changedProductionClasses.size ++ " production, " ++
    decimal i.changedTestClasses.size ++ " test classes)\n"
  head ++
    if i.runAll then "no affected tests matched: run the full suite\n"
    else if i.testFqns.isEmpty then "no affected tests\n"
    else "affected tests (" ++ decimal i.testFqns.size ++ "):\n" ++
      String.join (i.testFqns.toList.map fun fqn => "  " ++ fqn ++ "\n")

/-! ## JSON -/

/-- The characters that stand for one in a JSON string. -/
def jsonChar (c : Char) : List Char :=
  match c with
  | '"' => ['\\', '"']
  | '\\' => ['\\', '\\']
  | '\x08' => ['\\', 'b']
  | '\t' => ['\\', 't']
  | '\n' => ['\\', 'n']
  | '\x0c' => ['\\', 'f']
  | '\r' => ['\\', 'r']
  | c =>
    if c.toNat < 0x20 then
      ['\\', 'u', '0', '0', Hexadecimal.lower (c.toNat / 16), Hexadecimal.lower (c.toNat % 16)]
    else [c]

/-- A JSON string. -/
def jsonString (s : String) : String := .ofList ('"' :: (s.toList.flatMap jsonChar ++ ['"']))

/-- A JSON array of strings inside an object, with an item a line. -/
def jsonList (s : NameSet) : String :=
  if s.isEmpty then "[]"
  else "[\n" ++ ",\n".intercalate (s.toList.map fun x => "    " ++ jsonString x) ++ "\n  ]"

/-- The report as a JSON object. -/
def json (i : Impact) : String :=
  let fields :=
    [("testFqns", jsonList i.testFqns), ("changedFiles", jsonList i.changedFiles),
      ("changedProductionClasses", jsonList i.changedProductionClasses),
      ("changedTestClasses", jsonList i.changedTestClasses),
      ("runAll", if i.runAll then "true" else "false")]
  "\x7b\n" ++ ",\n".intercalate (fields.map fun f => "  " ++ jsonString f.1 ++ ": " ++ f.2) ++
    "\n\x7d\n"

/-- The report as arguments for a test task. Where all tests are to be run there are none. -/
def gradle (i : Impact) : String :=
  if i.runAll then "" else String.join (i.testFqns.toList.map fun fqn => "--tests " ++ fqn ++ "\n")

/-- The report in a form. -/
def render (i : Impact) : ReportFormat → String
  | .text => text i
  | .json => json i
  | .gradle => gradle i

end Report

end TestImpact
