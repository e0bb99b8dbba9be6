import TestImpact.Java.Source

/-!
# The classes of a search root

A catalogue holds the records of the production classes and of the tests by their qualified names.
Where several files give one kind and name, the first one counts. Main statement: what a catalogue
finds after a further record (`find_add`).
-/

namespace TestImpact

open Java (ClassRecord SourceKind)

/-- The classes of a search root. -/
structure Catalogue where
  production : NameMap ClassRecord := .empty
  tests : NameMap ClassRecord := .empty
  /-- The qualified names of the tests by simple name, in the order of their records. -/
  testsBySimpleName : NameMap (List String) := .empty
  /-- The number of records that were not kept. -/
  duplicates : Nat := 0
deriving Repr

namespace Catalogue

/-- The catalogue without classes. -/
def empty : Catalogue := {}

/-- The records of a kind. -/
def of (c : Catalogue) : SourceKind → NameMap ClassRecord
  | .production => c.production
  | .test => c.tests

/-- The catalogue with one more record, unless the kind and name are taken. -/
def add (c : Catalogue) (r : ClassRecord) : Catalogue :=
  if (c.of r.kind).contains r.fqn then { c with duplicates := c.duplicates + 1 }
  else match r.kind with
    | .production => { c with production := c.production.insert r.fqn r }
    | .test =>
      { c with
        tests := c.tests.insert r.fqn r
        testsBySimpleName := c.testsBySimpleName.insert r.simpleName
          ((c.testsBySimpleName.find? r.simpleName).getD [] ++ [r.fqn]) }

/-- The catalogue of the records in their order. -/
def ofRecords (rs : List ClassRecord) : Catalogue := rs.foldl add empty

/-- The qualified names of the tests of a simple name, in the order of their records. -/
def testsNamed (c : Catalogue) (simple : String) : List String :=
  (c.testsBySimpleName.find? simple).getD []

/-- The production class `fqn` is in the catalogue. -/
def hasProduction (c : Catalogue) (fqn : String) : Bool := c.production.contains fqn

/-- A further record is found unless its kind and name were taken, and nothing else changes. -/
theorem find_add {c : Catalogue} {r : ClassRecord} {kind : SourceKind} {fqn : String} :
    ((c.add r).of kind).find? fqn =
      ((c.of kind).find? fqn).or (if r.kind = kind ∧ r.fqn = fqn then some r else none) := by
  rw [add]
  split
  · next h =>
    have : ∀ k, ({ c with duplicates := c.duplicates + 1 } : Catalogue).of k = c.of k := by
      intro k; cases k <;> rfl
    rw [this]
    split
    · next hk =>
      obtain ⟨rfl, rfl⟩ := hk
      obtain ⟨v, hv⟩ := Option.isSome_iff_exists.1 h
      simp [hv]
    · simp
  · next h =>
    have hn : (c.of r.kind).find? r.fqn = none := by
      simpa [NameMap.contains] using h
    split
    · next hr =>
      cases kind with
      | production =>
        by_cases hf : r.fqn = fqn
        · subst hf
          rw [hr] at hn
          have hn' : c.production.find? r.fqn = none := hn
          simp [of, hr, hn']
        · simp [of, hr, hf]
      | test => simp [of, hr]
    · next hr =>
      cases kind with
      | production => simp [of, hr]
      | test =>
        by_cases hf : r.fqn = fqn
        · subst hf
          rw [hr] at hn
          have hn' : c.tests.find? r.fqn = none := hn
          simp [of, hr, hn']
        · simp [of, hr, hf]

end Catalogue

end TestImpact
