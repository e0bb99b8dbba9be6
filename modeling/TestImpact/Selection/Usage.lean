import TestImpact.Catalogue

/-!
# Tests by use

A test uses a class if it imports the class by name, or if it mentions the class's simple name in
type position and sees the class's package, by an import on demand or as its own package.
-/

namespace TestImpact.Selection

open Java (ClassRecord)

/-- How a test sees a class. -/
inductive UsageTier
  | directImport
  | wildcardImport
  | samePackage
deriving DecidableEq, Repr

/-- The first way in which the source sees the class `fqn`. -/
def usageTier? (r : ClassRecord) (fqn : String) : Option UsageTier :=
  if r.importsClass fqn then some .directImport
  else if packageOf fqn ∈ r.wildcardImports ∧ r.refersTo (simpleName fqn) then some .wildcardImport
  else if r.package = packageOf fqn ∧ r.refersTo (simpleName fqn) then some .samePackage
  else none

/-- The test is no changed class itself and uses one. -/
def usesChanged (changed : NameSet) (r : ClassRecord) : Bool :=
  r.fqn ∉ changed && changed.toList.any fun fqn => (usageTier? r fqn).isSome

/-- The tests that use a changed class. -/
def byUse (changed : NameSet) (c : Catalogue) : NameSet :=
  .ofList ((c.tests.values.filter (usesChanged changed)).map ClassRecord.fqn)

end TestImpact.Selection
