import TestImpact.Config.Basic
import TestImpact.Toml.Document
import TestImpact.Toml.Printer

/-!
# A configuration as a document

The settings by their names in a TOML document. A setting that the document does not name has its
default value, and names that are no settings do not count.
-/

namespace TestImpact.Config

open Toml (Table Value)

/-- The strings of an array of strings. -/
def strings? : Value → Option (List String)
  | .array items => items.mapM fun
    | .string s => some s
    | _ => none
  | _ => none

/-- A truth value. -/
def bool? : Value → Option Bool
  | .boolean b => some b
  | _ => none

/-- A string. -/
def string? : Value → Option String
  | .string s => some s
  | _ => none

/-- An integer of 32 bits. -/
def int32? : Value → Option Int
  | .integer n => if -0x80000000 ≤ n ∧ n < 0x80000000 then some n else none
  | _ => none

/-- A strategy, by its name or as a table with nothing but the name and an empty value. -/
def strategy? : Value → Option Strategy
  | .string s => Strategy.ofName? s
  | .table _ [(name, .table _ [])] | .table _ [(name, .array [])] => Strategy.ofName? name
  | _ => none

/-- A list of strategies. -/
def strategies? : Value → Option (List Strategy)
  | .array items => items.mapM strategy?
  | .tables all => all.mapM fun t => strategy? (.table .header t)
  | _ => none

/-- The name under which a date is seen where a table of strings is expected. -/
def dateEntry : String := "$__toml_private_datetime"

/-- A map from strings to strings. -/
def mapping? : Value → Option (NameMap String)
  | .table _ entries =>
    (entries.mapM fun e => (string? e.2).map fun s => (e.1, s)).map NameMap.ofList
  | .dateTime text => some (.ofList [(dateEntry, text)])
  | _ => none

/-- The setting of the given name, or `default` if the document does not name it. -/
def setting {α : Type} (t : Table) (name : String) (read : Value → Option α) (default : α) :
    Option α :=
  match t.lookup name with
  | none => some default
  | some v => read v

/-- The configuration that a document describes. -/
def ofTable? (t : Table) : Option Config := do
  let d : Config := {}
  return {
    baseRef := ← setting t "base_ref" string? d.baseRef
    includeUncommitted := ← setting t "include_uncommitted" bool? d.includeUncommitted
    includeStaged := ← setting t "include_staged" bool? d.includeStaged
    runAllIfNoMatches := ← setting t "run_all_if_no_matches" bool? d.runAllIfNoMatches
    strategies := ← setting t "strategies" strategies? d.strategies
    transitiveDepth := ← setting t "transitive_depth" int32? d.transitiveDepth
    testSuffixes := ← setting t "test_suffixes" strings? d.testSuffixes
    sourceDirs := ← setting t "source_dirs" strings? d.sourceDirs
    testDirs := ← setting t "test_dirs" strings? d.testDirs
    excludePaths := ← setting t "exclude_paths" strings? d.excludePaths
    includeImplementationTests :=
      ← setting t "include_implementation_tests" bool? d.includeImplementationTests
    implementationNaming := ← setting t "implementation_naming" strings? d.implementationNaming
    prunedDirs := ← setting t "pruned_dirs" strings? d.prunedDirs
    testProjectMapping := ← setting t "test_project_mapping" mapping? d.testProjectMapping }

/-- The configuration that a text describes. -/
def parse? (text : String) : Option Config := (Toml.parse? text).bind ofTable?

/-- The document that describes a configuration. -/
def write (c : Config) : String :=
  String.join
    [Toml.writeEntry "base_ref" (Toml.writeString c.baseRef),
      Toml.writeEntry "include_uncommitted" (Toml.writeBool c.includeUncommitted),
      Toml.writeEntry "include_staged" (Toml.writeBool c.includeStaged),
      Toml.writeEntry "run_all_if_no_matches" (Toml.writeBool c.runAllIfNoMatches),
      Toml.writeEntry "strategies" (Toml.writeList (c.strategies.map Strategy.name)),
      Toml.writeEntry "transitive_depth" (Toml.writeInt c.transitiveDepth),
      Toml.writeEntry "test_suffixes" (Toml.writeList c.testSuffixes),
      Toml.writeEntry "source_dirs" (Toml.writeList c.sourceDirs),
      Toml.writeEntry "test_dirs" (Toml.writeList c.testDirs),
      Toml.writeEntry "exclude_paths" (Toml.writeList c.excludePaths),
      Toml.writeEntry "include_implementation_tests"
        (Toml.writeBool c.includeImplementationTests),
      Toml.writeEntry "implementation_naming" (Toml.writeList c.implementationNaming),
      Toml.writeEntry "pruned_dirs" (Toml.writeList c.prunedDirs),
      "\n[test_project_mapping]\n",
      String.join (c.testProjectMapping.toList.map fun e =>
        Toml.writeEntry e.1 (Toml.writeString e.2))]

end TestImpact.Config
