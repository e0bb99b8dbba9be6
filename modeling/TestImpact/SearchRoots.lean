import TestImpact.FileTree.Place
import TestImpact.Layout

/-!
# Search roots

Tests are searched in the project's folder and in the folders to which the configuration maps the
modules with a change. A mapping that leads out of the project, by its text or through links, is
refused; one that leads to no folder does not count.
-/

namespace TestImpact

/-- A mapping that leads out of the project. -/
structure RefusedMapping where
  source : String
  target : String
deriving DecidableEq, Repr

/-- The wording of a refusal. -/
def RefusedMapping.message (r : RefusedMapping) : String :=
  "mapping '" ++ r.source ++ "' -> '" ++ r.target ++ "' resolves outside the project root"

/-- The folders that are searched, and the mappings that are refused. -/
structure SearchRoots where
  roots : List Path
  refused : List RefusedMapping
deriving DecidableEq, Repr

namespace SearchRoots

/-- What a mapping leads to. -/
inductive Destination
  | folder (path : Path)
  | nowhere
  | outside
deriving DecidableEq, Repr

/-- The project's folder without links, or at least without `.` and `..` if it does not exist. -/
def projectRoot (t : FileTree) (project : Path) : Path :=
  match t.canonical project with
  | .ok p => p
  | .error _ => project.normalize

/-- The mapping of a module. A module is written with a leading colon or without, and its folders
may be separated by colons. -/
def mappingOf? (mapping : NameMap String) (name : String) : Option String :=
  [":" ++ name, name, ":" ++ replaceChar '/' ':' name].findSome? mapping.find?

/-- The path that a mapping's target stands for: leading colons do not count, others are slashes. -/
def targetPath (root : Path) (target : String) : Path :=
  (root.join (.ofList ((target.toList.dropWhile (· = ':')).map
    fun c => if c = ':' then '/' else c))).normalize

/-- What a target leads to from the project's folder. -/
def destination (t : FileTree) (root : Path) (target : String) : Destination :=
  let candidate := targetPath root target
  if candidate.startsWith root then
    match t.canonical candidate with
    | .error _ => .nowhere
    | .ok real =>
      if real.startsWith root then if t.isFolder real then .folder real else .nowhere else .outside
  else .outside

/-- The modules of the changed paths, the one around the project excepted. -/
def changedModules (l : Layout) (changed : NameSet) : NameSet :=
  .ofList ((changed.toList.map l.moduleOf).filter (· ≠ ""))

/-- Takes a module's mapping into account. -/
def add (t : FileTree) (mapping : NameMap String) (root : Path) (s : SearchRoots) (name : String) :
    SearchRoots :=
  match mappingOf? mapping name with
  | none => s
  | some target =>
    match destination t root target with
    | .folder p => if p ∈ s.roots then s else { s with roots := s.roots ++ [p] }
    | .nowhere => s
    | .outside => { s with refused := s.refused ++ [⟨name, target⟩] }

/-- The folders that are searched for the tests of changed paths. -/
def resolve (t : FileTree) (project : Path) (l : Layout) (mapping : NameMap String)
    (changed : NameSet) : SearchRoots :=
  let root := projectRoot t project
  (changedModules l changed).toList.foldl (add t mapping root) ⟨[root], []⟩

end SearchRoots

end TestImpact
