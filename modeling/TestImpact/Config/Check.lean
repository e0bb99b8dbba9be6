import TestImpact.Config.Basic
import TestImpact.Config.Error
import TestImpact.Text.Blank

/-!
# Checks on a configuration

A configuration is refused if its base reference could not be meant as one, or if its patterns
cannot be used.
-/

namespace TestImpact.Config

/-- The exclusion patterns, or what is wrong with the first one that cannot be read, or with all of
them together. -/
def excludes (c : Config) : Except ConfigError (List Glob.Pattern) := do
  let patterns ← c.excludePaths.mapM fun s =>
    (Glob.Pattern.ofText? s).mapError (.invalidGlob s)
  (Glob.checkNesting patterns).mapError (.unusableGlobs c.excludePaths)
  return patterns

/-- Refuses a base reference that is blank, that would be read as an option, or that looks like a
path out of the repository. Blanks around it do not count, and a backslash counts as a slash. -/
def checkBaseRef (ref : String) : Except ConfigError Unit :=
  let trimmed := trim ref
  let slashed := replaceChar '\\' '/' trimmed
  if trimmed.isEmpty then .error .blankBaseRef
  else if startsWith "-" trimmed then .error (.optionLikeBaseRef ref)
  else if hasPart "../".toList slashed.toList || startsWith "/" slashed then
    .error (.suspiciousBaseRef ref)
  else .ok ()

/-- Refuses a configuration that cannot be used. -/
def check (c : Config) : Except ConfigError Unit := do
  checkBaseRef c.baseRef
  discard c.excludes

end TestImpact.Config
