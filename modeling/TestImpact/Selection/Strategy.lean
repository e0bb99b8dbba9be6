import TestImpact.Config.Basic
import TestImpact.Selection.Implementation
import TestImpact.Selection.Transitive

/-!
# The configured selection

Which tests of a catalogue a set of changed production classes selects under a configuration.
-/

namespace TestImpact

namespace Config

/-- The strategies that are run: the enabled ones, the transitive one only at a depth above 0. -/
def runStrategies (c : Config) : List Strategy :=
  c.enabledStrategies.filter fun s => s ≠ .transitive || c.effectiveDepth ≠ 0

/-- The strategy is enabled. -/
def isEnabled (c : Config) (s : Strategy) : Bool := c.strategies.contains s

end Config

namespace Selection

/-- The selection through implementations takes tests by name and by use as far as these strategies
are enabled on their own. -/
def implementationRule (config : Config) : ImplementationRule :=
  { enabled := config.includeImplementationTests
    suffixes := config.implementationNaming
    testSuffixes := if config.isEnabled .naming then some config.testSuffixes else none
    byUse := config.isEnabled .usage }

/-- The tests that one strategy selects. -/
def byStrategy (config : Config) (changed : NameSet) (c : Catalogue) : Strategy → NameSet
  | .naming => byName config.testSuffixes changed c
  | .usage => byUse changed c
  | .implementation => byImplementation (implementationRule config) changed c
  | .transitive => byDependency config.effectiveDepth config.testSuffixes changed c

/-- The tests that the strategies of a configuration select together. -/
def selectTests (config : Config) (changed : NameSet) (c : Catalogue) : NameSet :=
  config.runStrategies.foldl (fun found s => found.union (byStrategy config changed c s)) .empty

/-- A union over a list has the members of each of its sets, and those from before. -/
theorem mem_foldl_union {α : Type} {f : α → NameSet} {xs : List α} {s : NameSet} {t : String} :
    t ∈ xs.foldl (fun found x => found.union (f x)) s ↔ t ∈ s ∨ ∃ x ∈ xs, t ∈ f x := by
  induction xs generalizing s with
  | nil => simp
  | cons x xs ih => simp [ih, or_assoc]

/-- A test is selected if one of the strategies selects it. -/
theorem mem_selectTests {config : Config} {changed : NameSet} {c : Catalogue} {t : String} :
    t ∈ selectTests config changed c ↔
      ∃ s ∈ config.runStrategies, t ∈ byStrategy config changed c s := by
  simp [selectTests, mem_foldl_union]

end Selection

end TestImpact
