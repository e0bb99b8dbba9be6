import TestImpact.Selection.Naming
import TestImpact.Selection.Usage

/-!
# Tests of implementations

A class implements a changed one if its simple name is the changed simple name followed by one of
the configured suffixes, or if a type that its file declares has a supertype of the changed simple
name. Packages do not count.
-/

namespace TestImpact.Selection

open Java (ClassRecord TypeDecl)

/-- The simple name of a raw type. -/
def rawSimpleName (raw : String) : String := simpleName (Java.typeHead raw)

/-- The declared type has a supertype of one of the simple names. -/
def extendsOneOf (names : NameSet) (d : TypeDecl) : Bool :=
  d.supertypes.any fun raw => rawSimpleName raw ∈ names

/-- The classes of one file that implement a class of the simple names. -/
def implementationsIn (suffixes : List String) (names : NameSet) (r : ClassRecord) : List String :=
  (if names.toList.any fun n => suffixes.any fun s => r.simpleName = n ++ s then [r.fqn] else []) ++
    (r.declarations.filter (extendsOneOf names)).map r.declaredName

/-- The production classes that implement a changed class. -/
def implementations (suffixes : List String) (changed : NameSet) (c : Catalogue) : NameSet :=
  let names := NameSet.ofList (changed.toList.map simpleName)
  .ofList (c.production.values.flatMap (implementationsIn suffixes names))

/-- How the tests of implementations are selected. -/
structure ImplementationRule where
  enabled : Bool
  /-- What the simple name of an implementation adds to that of the class. -/
  suffixes : List String
  /-- The suffixes of tests that are named after an implementation, if such tests count. -/
  testSuffixes : Option (List String)
  /-- Tests that use an implementation count. -/
  byUse : Bool
deriving DecidableEq, Repr

/-- The tests that the implementations of changed classes select. -/
def byImplementation (rule : ImplementationRule) (changed : NameSet) (c : Catalogue) : NameSet :=
  if rule.enabled then
    let found := implementations rule.suffixes changed c
    let named := match rule.testSuffixes with
      | some suffixes => byName suffixes found c
      | none => .empty
    if rule.byUse then named.union (byUse found c) else named
  else .empty

end TestImpact.Selection
