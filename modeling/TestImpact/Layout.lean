import TestImpact.Config.Check
import TestImpact.Java.ClassFile

/-!
# The layout of a project

Where a changed path belongs: the class that it holds, production code or a test, and the module
around the source folder. Paths count by their segments, in which a backslash is a slash and empty
and `.` segments are dropped. Main statement: what a split at a folder gives is the path
(`append_of_splitAtFolder?`).
-/

namespace TestImpact

open Java (SourceKind)

/-- The segments of a path text. -/
def segments (path : String) : List String :=
  (piecesOf '/' (replaceChar '\\' '/' path)).filter fun s => s ≠ "" && s ≠ "."

/-- Splits a path at the first place where all segments of `folder` stand: the segments in front of
it and those behind it. A folder without segments stands nowhere. -/
def splitAtFolder? (folder : List String) : List String → Option (List String × List String)
  | [] => none
  | s :: r =>
    if folder ≠ [] ∧ folder.isPrefixOf (s :: r) then some ([], (s :: r).drop folder.length)
    else (splitAtFolder? folder r).map fun p => (s :: p.1, p.2)

/-- The two parts and the folder between them make up the path. -/
theorem append_of_splitAtFolder? {folder path before after : List String}
    (h : splitAtFolder? folder path = some (before, after)) : path = before ++ folder ++ after := by
  induction path generalizing before after with
  | nil => cases h
  | cons s r ih =>
    rw [splitAtFolder?] at h
    split at h
    · next hc =>
      cases h
      obtain ⟨t, ht⟩ := List.isPrefixOf_iff_prefix.1 hc.2
      rw [← ht]
      simp
    · obtain ⟨⟨b, a⟩, hb, he⟩ := Option.map_eq_some_iff.1 h
      cases he
      rw [ih hb]
      rfl

/-- The source and test folders of a project and the paths that are left out. -/
structure Layout where
  sourceDirs : List (List String)
  testDirs : List (List String)
  excludes : List Glob.Pattern
deriving Repr

/-- The changed classes and the files that hold them. -/
structure ChangedClasses where
  productionClasses : NameSet
  testClasses : NameSet
  productionFiles : NameSet
  testFiles : NameSet
deriving DecidableEq, Repr

namespace Layout

/-- The layout that a configuration describes. -/
def ofConfig (c : Config) : Except ConfigError Layout :=
  c.excludes.map fun excludes =>
    { sourceDirs := c.sourceDirs.map segments, testDirs := c.testDirs.map segments, excludes }

/-- The path is left out. -/
def isExcluded (l : Layout) (path : String) : Bool := Glob.selects l.excludes path

/-- The class in a file, from the segments between the source folder and the file's end. -/
def classBelow? (below : List String) : Option String := do
  let stem ← dropEnd? ".java" (← below.getLast?)
  return ".".intercalate (below.dropLast ++ [stem])

/-- The folders in the order in which they are tried, test folders first. -/
def folders (l : Layout) : List (SourceKind × List String) :=
  l.testDirs.map (.test, ·) ++ l.sourceDirs.map (.production, ·)

/-- The class that a path holds. The first folder that stands in the path in front of a source file
counts. -/
def classify (l : Layout) (path : String) : Option (SourceKind × String) :=
  l.folders.findSome? fun (kind, folder) => do
    let (_, below) ← splitAtFolder? folder (segments path)
    return (kind, ← classBelow? below)

/-- The segments of a path in front of its source or test folder, and nothing for a path without
one. Source folders are tried first. -/
def moduleOf (l : Layout) (path : String) : String :=
  match (l.sourceDirs ++ l.testDirs).findSome? (splitAtFolder? · (segments path)) with
  | some (before, _) => "/".intercalate before
  | none => ""

/-- The class of a changed path, unless it is no source file or is left out. -/
def changedClass? (l : Layout) (path : String) : Option (SourceKind × String) :=
  if endsIn ".java" path && !l.isExcluded path then l.classify path else none

/-- The changed paths that hold a class of the kind, with their classes. -/
def changedOf (l : Layout) (kind : SourceKind) (changed : NameSet) : List (String × String) :=
  changed.toList.filterMap fun path =>
    match l.changedClass? path with
    | some (k, fqn) => if k = kind then some (path, fqn) else none
    | none => none

/-- The classes of changed paths. -/
def changedClasses (l : Layout) (changed : NameSet) : ChangedClasses :=
  let production := l.changedOf .production changed
  let tests := l.changedOf .test changed
  { productionClasses := .ofList (production.map (·.2))
    testClasses := .ofList (tests.map (·.2))
    productionFiles := .ofList (production.map (·.1))
    testFiles := .ofList (tests.map (·.1)) }

end Layout

end TestImpact
