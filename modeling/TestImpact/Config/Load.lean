import TestImpact.Config.Document
import TestImpact.Config.Error
import TestImpact.FileTree.Place

/-!
# The configuration of a project

A project is configured by the file that is asked for, or else by the file of the usual name in its
folder, or else by default.
-/

namespace TestImpact.Config

/-- The usual name of a configuration file. -/
def fileName : String := "affected-tests.toml"

/-- The path of a project's configuration file. -/
def pathFor (project : Path) (explicit : Option Path) : Path :=
  explicit.getD (project.join fileName)

/-- The configuration in a file. -/
def ofFile (t : FileTree) (path : Path) : Except ConfigError Config :=
  match t.readText path with
  | .error why => .error (.unreadable path why)
  | .ok text =>
    match parse? text with
    | some c => .ok c
    | none => .error (.malformed path)

/-- The configuration of a project. -/
def load (t : FileTree) (project : Path) (explicit : Option Path) : Except ConfigError Config :=
  if explicit.isNone && !t.isFile (pathFor project none) then .ok {}
  else ofFile t (pathFor project explicit)

end TestImpact.Config
