import TestImpact.FileTree.Error
import TestImpact.Glob.Pattern
import TestImpact.Path

/-!
# What can be wrong with a configuration
-/

namespace TestImpact

/-- A configuration that cannot be used. -/
inductive ConfigError
  | blankBaseRef
  | suspiciousBaseRef (ref : String)
  | optionLikeBaseRef (ref : String)
  | invalidGlob (pattern : String) (why : Glob.PatternError)
  /-- Each pattern can be read, but they cannot be used. -/
  | unusableGlobs (patterns : List String) (why : Glob.NestingError)
  | unreadable (path : Path) (why : FileError)
  /-- The text is no configuration. -/
  | malformed (path : Path)
deriving DecidableEq, Repr

namespace ConfigError

/-- The wording of a fault in a pattern, with the pattern. -/
def globMessage (pattern : String) (why : Glob.PatternError) : String :=
  "error parsing glob '" ++ pattern ++ "': " ++ why.message

/-- The wording of an error. A malformed text has no reason of its own. -/
def message : ConfigError → String
  | blankBaseRef =>
    "base_ref must not be blank (set base_ref in affected-tests.toml or pass --base-ref)"
  | suspiciousBaseRef ref =>
    "base_ref '" ++ ref ++ "' looks like a path traversal; use a branch, tag or commit SHA"
  | optionLikeBaseRef ref =>
    "base_ref '" ++ ref ++
      "' starts with '-' and would be read as a git option; use a branch, tag or commit SHA"
  | invalidGlob pattern why =>
    "exclude pattern '" ++ pattern ++ "' is not a valid glob: " ++ globMessage pattern why
  | unusableGlobs patterns why =>
    "exclude pattern '" ++ ", ".intercalate patterns ++ "' is not a valid glob: " ++ why.message
  | unreadable path why => "cannot read config file " ++ path.text ++ ": " ++ why.message
  | malformed path => "cannot parse config file " ++ path.text

/-- The wordings of what caused an error. -/
def causes : ConfigError → List String
  | invalidGlob pattern why => [globMessage pattern why]
  | unusableGlobs _ why => [why.message]
  | unreadable _ why => [why.message]
  | _ => []

end ConfigError

end TestImpact
