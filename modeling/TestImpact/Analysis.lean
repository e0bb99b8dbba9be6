import TestImpact.Catalogue.Scan
import TestImpact.Changes.Detection
import TestImpact.SearchRoots
import TestImpact.Selection.Strategy

/-!
# The analysis of a change

The changed paths are mapped to classes. Changed tests are selected as they are; for changed
production classes every search root is scanned and the configured strategies select tests there.
All tests are asked for just if none is selected and the configuration says so.
-/

namespace TestImpact

/-- The outcome of an analysis. -/
structure Impact where
  testFqns : NameSet := .empty
  changedFiles : NameSet := .empty
  changedProductionClasses : NameSet := .empty
  changedTestClasses : NameSet := .empty
  /-- All tests are to be run. -/
  runAll : Bool
deriving DecidableEq, Repr

/-- An analysis that is ready to run. -/
structure Analysis where
  config : Config
  layout : Layout
  project : Path
deriving Repr

namespace Analysis

/-- The analysis of a project under a configuration that can be used. -/
def prepare (config : Config) (project : Path) : Except ConfigError Analysis := do
  config.check
  return { config, layout := ← Layout.ofConfig config, project }

/-- The tests that the strategies select in the search roots. -/
def discover (a : Analysis) (t : FileTree) (changed production : NameSet) : NameSet :=
  let search := SearchRoots.resolve t a.project a.layout a.config.testProjectMapping changed
  search.roots.foldl (fun found root =>
    found.union (Selection.selectTests a.config production (Scan.ofRoot t root a.config).catalogue))
    .empty

/-- The tests that changed paths select. -/
def selected (a : Analysis) (t : FileTree) (changed : NameSet) : NameSet :=
  let classes := a.layout.changedClasses changed
  if classes.productionClasses.isEmpty then classes.testClasses
  else classes.testClasses.union (a.discover t changed classes.productionClasses)

/-- The impact of changed paths. -/
def analyze (a : Analysis) (t : FileTree) (changed : NameSet) : Impact :=
  let classes := a.layout.changedClasses changed
  let tests := a.selected t changed
  { testFqns := tests
    changedFiles := changed
    changedProductionClasses := classes.productionClasses
    changedTestClasses := classes.testClasses
    runAll := tests.isEmpty && a.config.runAllIfNoMatches }

/-- The wording of why an analysis does not get to know the changes. -/
def failureMessage (why : Changes.ChangeError) : String :=
  "change detection error: " ++ why.message

/-- The impact of the changes that git knows of. -/
def run (a : Analysis) (t : FileTree) (session : Changes.Session) :
    Except Changes.ChangeError Impact :=
  ((Changes.detect a.project a.config).outcome session).1.map (a.analyze t)

end Analysis

end TestImpact
