import TestImpact.Catalogue

/-!
# Tests by name

A test belongs to a class if its simple name is the class's simple name followed by one of the
configured suffixes.
-/

namespace TestImpact.Selection

/-- The simple names that tests of the changed classes have. -/
def testNames (suffixes : List String) (changed : NameSet) : NameSet :=
  .ofList (changed.toList.flatMap fun fqn => suffixes.map (simpleName fqn ++ ·))

/-- The tests that are named after a changed class. -/
def byName (suffixes : List String) (changed : NameSet) (c : Catalogue) : NameSet :=
  .ofList ((testNames suffixes changed).toList.flatMap c.testsNamed)

/-- The names looked for are those of a changed class with a suffix. -/
theorem mem_testNames {suffixes : List String} {changed : NameSet} {name : String} :
    name ∈ testNames suffixes changed ↔
      ∃ f ∈ changed, ∃ s ∈ suffixes, simpleName f ++ s = name := by
  simp [testNames]

end TestImpact.Selection
