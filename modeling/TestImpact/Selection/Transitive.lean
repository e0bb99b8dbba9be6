import TestImpact.Selection.Dependency
import TestImpact.Selection.Naming
import TestImpact.Selection.Usage

/-!
# Tests of dependents

The changed classes are the start of a search through the dependency graph. Every level holds the
classes that depend on one of the level before and have not been met; the tests of the levels up to
a given depth are selected. The changed classes themselves are in no level.
-/

namespace TestImpact.Selection

/-- The classes not in `met` that depend on one of `frontier`. -/
def nextLevel (g : DependencyGraph) (met frontier : NameSet) : NameSet :=
  (NameSet.ofList (frontier.toList.flatMap fun f => (g.dependentsOf f).toList)).filter (· ∉ met)

/-- The next levels behind `frontier`, at most `depth` of them and none without classes. -/
def levels (g : DependencyGraph) (met frontier : NameSet) : Nat → List NameSet
  | 0 => []
  | depth + 1 =>
    let next := nextLevel g met frontier
    if next.isEmpty then [] else next :: levels g (met.union next) next depth

/-- The tests of the classes that depend on a changed one over at most `depth` steps. -/
def byDependency (depth : Nat) (suffixes : List String) (changed : NameSet) (c : Catalogue) :
    NameSet :=
  (levels (.ofCatalogue c) changed changed depth).foldl
    (fun found level => (found.union (byName suffixes level c)).union (byUse level c)) .empty

end TestImpact.Selection
