import TestImpact.Ordered.NameMap

/-!
# The configuration of an analysis

The settings and their default values.
-/

namespace TestImpact

/-- The ways of selecting tests for a changed class. -/
inductive Strategy
  /-- Tests that are named after the class. -/
  | naming
  /-- Tests that import the class or mention it. -/
  | usage
  /-- Tests of the classes that implement or extend it. -/
  | implementation
  /-- Tests of the classes that hold it in a field, over some steps. -/
  | transitive
deriving DecidableEq, Repr

namespace Strategy

/-- The name of a strategy in configuration and output. -/
def name : Strategy → String
  | naming => "naming"
  | usage => "usage"
  | implementation => "impl"
  | transitive => "transitive"

/-- All strategies. -/
def all : List Strategy := [naming, usage, implementation, transitive]

/-- The strategy of the given name. -/
def ofName? (s : String) : Option Strategy := all.find? (·.name = s)

/-- A strategy is read back from its name. -/
theorem ofName?_name (k : Strategy) : ofName? k.name = some k := by
  cases k <;> decide

end Strategy

/-- The settings of an analysis. -/
structure Config where
  /-- The branch, tag or commit that the head is compared with. -/
  baseRef : String := "origin/master"
  includeUncommitted : Bool := true
  includeStaged : Bool := true
  /-- Ask for all tests when none is selected. -/
  runAllIfNoMatches : Bool := false
  strategies : List Strategy := Strategy.all
  /-- The number of steps of the transitive strategy, between 0 and `maxDepth` where it counts. -/
  transitiveDepth : Int := 2
  testSuffixes : List String := ["Test", "IT", "ITTest", "IntegrationTest"]
  sourceDirs : List String := ["src/main/java"]
  testDirs : List String := ["src/test/java"]
  excludePaths : List String := ["**/generated/**"]
  includeImplementationTests : Bool := true
  implementationNaming : List String := ["Impl"]
  /-- The names of folders that are never searched. -/
  prunedDirs : List String :=
    [".git", ".gradle", ".idea", ".mvn", "build", "out", "target", "node_modules"]
  /-- From a changed module to the module whose tests are searched too. -/
  testProjectMapping : NameMap String := .empty
deriving Repr

namespace Config

/-- The greatest number of steps of the transitive strategy. -/
def maxDepth : Nat := 5

/-- The number of steps of the transitive strategy. -/
def effectiveDepth (c : Config) : Nat := min c.transitiveDepth.toNat maxDepth

/-- The strategies in the configured order, each one once. -/
def enabledStrategies (c : Config) : List Strategy := c.strategies.eraseDups

end Config

end TestImpact
