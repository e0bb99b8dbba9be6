import TestImpact.Catalogue
import TestImpact.Config.Basic
import TestImpact.FileTree.Walk

/-!
# The catalogue of a folder

A search root is scanned for the configured source folders, then for the test folders, each suffix
in the configured order; the source files of each folder found are read in the order of their paths.
A file that cannot be read is counted and left out.
-/

namespace TestImpact

open Java (ClassRecord SourceKind)

/-- A source file as it is found. -/
structure SourceFile where
  path : Path
  fqn : String
  kind : SourceKind
  bytes : List UInt8
deriving Repr

namespace SourceFile

/-- The record of a source file, if its bytes are a text that can be read. -/
def record? (f : SourceFile) : Option ClassRecord :=
  (Utf8.decode? f.bytes).bind fun text => (ClassRecord.read text f.path f.fqn f.kind).toOption

end SourceFile

/-- What a search root holds. -/
structure Scan where
  catalogue : Catalogue
  sourceRoots : Nat
  testRoots : Nat
  filesParsed : Nat
  parseFailures : Nat
deriving Repr

namespace Scan

/-- The source files of a source folder that has been found at `path`. -/
def filesOf (kind : SourceKind) (path : Path) (inside : Items) : List SourceFile :=
  (FileTree.filesBelow Java.sourceExtension inside).filterMap fun (names, bytes) =>
    (Java.classAt? ⟨"/".intercalate names⟩).map fun fqn =>
      { path := path.descend names, fqn, kind, bytes }

/-- The source folders of a kind under `root`, with what they hold, suffix by suffix. -/
def foldersOf (t : FileTree) (root : Path) (config : Config) (kind : SourceKind) :
    List (Path × Items) :=
  let suffixes := match kind with
    | .production => config.sourceDirs
    | .test => config.testDirs
  suffixes.flatMap fun suffix =>
    (t.matchingFolders root suffix config.prunedDirs).map fun (names, inside) =>
      (root.descend names, inside)

/-- The source files of a kind under `root`, in the order in which they are read. -/
def sourceFiles (t : FileTree) (root : Path) (config : Config) (kind : SourceKind) :
    List SourceFile :=
  (foldersOf t root config kind).flatMap fun (path, inside) => filesOf kind path inside

/-- Scans the folder at `root`. -/
def ofRoot (t : FileTree) (root : Path) (config : Config) : Scan :=
  let files := sourceFiles t root config .production ++ sourceFiles t root config .test
  let records := files.filterMap SourceFile.record?
  { catalogue := .ofRecords records
    sourceRoots := (foldersOf t root config .production).length
    testRoots := (foldersOf t root config .test).length
    filesParsed := records.length
    parseFailures := files.length - records.length }

end Scan

end TestImpact
