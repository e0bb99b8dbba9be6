import TestImpact.Path

/-!
# The class that a file holds

A source file is named after its class, and the folders between its source folder and the file are
the segments of the class's package.
-/

namespace TestImpact.Java

/-- Production code or a test. -/
inductive SourceKind
  | production
  | test
deriving DecidableEq, Repr

/-- The extension of a source file. -/
def sourceExtension : String := "java"

/-- The qualified name of the class in the file at `relative`, seen from its source folder. -/
def classAt? (relative : Path) : Option String :=
  if relative.extension? = some sourceExtension then
    some (".".intercalate (relative.withoutExtension.components.map Component.text))
  else none

end TestImpact.Java
