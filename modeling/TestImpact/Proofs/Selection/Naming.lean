import TestImpact.Proofs.Catalogue.Records
import TestImpact.Proofs.Selection.Membership

/-!
# Which tests are selected by name

The names that are looked for come from the changed classes and the suffixes, the tests that have
them from the catalogue, and both are gathered by simple name. Different classes and suffixes may
ask for one name, and different tests may have it. Main statement: what is selected does not depend
on how it was gathered; a test is selected just if its simple name is that of some changed class
with some suffix behind (`byName_selectsNamed`).
-/

namespace TestImpact.Selection

open Java (ClassRecord)

/-- A test of the name `t` has the simple name of a changed class with a suffix behind. -/
def IsNamedTest (c : Catalogue) (suffixes : List String) (changed : NameSet) (t : String) : Prop :=
  ∃ r ∈ c.tests.values, r.fqn = t ∧
    ∃ f ∈ changed, ∃ s ∈ suffixes, simpleName r.fqn = simpleName f ++ s

section
variable {rs : List ClassRecord} {c : Catalogue} {changed other : NameSet}
  {suffixes more : List String} {t : String}

/-- Exactly the tests with the name of a changed class and a suffix are selected. -/
theorem mem_byName_iff :
    t ∈ byName suffixes changed (.ofRecords rs) ↔
      IsNamedTest (.ofRecords rs) suffixes changed t := by
  rw [mem_byName]
  refine ⟨?_, ?_⟩
  · rintro ⟨f, hf, s, hs, ht⟩
    obtain ⟨hheld, hname⟩ := (Catalogue.listsTests_ofRecords t _).1 ht
    obtain ⟨r, hr⟩ := Option.isSome_iff_exists.1 hheld
    obtain rfl := Catalogue.fqn_of_find? .test hr
    exact ⟨r, NameMap.mem_values.2 ⟨_, hr⟩, rfl, f, hf, s, hs, hname⟩
  · rintro ⟨r, hr, rfl, f, hf, s, hs, hname⟩
    have hheld : (Catalogue.ofRecords rs).tests.contains r.fqn = true := by
      rw [NameMap.contains, Catalogue.mem_tests_values.1 hr]
      rfl
    exact ⟨f, hf, s, hs, (Catalogue.listsTests_ofRecords r.fqn _).2 ⟨hheld, hname⟩⟩

/-- What two changes select together is what each of them selects. -/
theorem byName_union :
    byName suffixes (changed.union other) c =
      (byName suffixes changed c).union (byName suffixes other c) := by
  refine NameSet.ext_mem fun t => ?_
  simp only [mem_byName, NameSet.mem_union, or_and_right, exists_or]

/-- What two lists of suffixes select together is what each of them selects. -/
theorem byName_append :
    byName (suffixes ++ more) changed c =
      (byName suffixes changed c).union (byName more changed c) := by
  refine NameSet.ext_mem fun t => ?_
  simp only [mem_byName, NameSet.mem_union, List.mem_append, or_and_right, exists_or, and_or_left]

/-- Selection by name takes the tests of the catalogue that have the simple name of a changed class
with a suffix behind, whatever suffixes there are. So it takes for changed classes together what it
takes for each of them, and for suffixes together what it takes for each. -/
theorem byName_selectsNamed :
    (∀ t, t ∈ byName suffixes changed (.ofRecords rs) ↔
      IsNamedTest (.ofRecords rs) suffixes changed t) ∧
    (∀ other, byName suffixes (changed.union other) (.ofRecords rs) =
      (byName suffixes changed (.ofRecords rs)).union (byName suffixes other (.ofRecords rs))) ∧
    ∀ more, byName (suffixes ++ more) changed (.ofRecords rs) =
      (byName suffixes changed (.ofRecords rs)).union (byName more changed (.ofRecords rs)) :=
  ⟨fun _ => mem_byName_iff, fun _ => byName_union, fun _ => byName_append⟩

end

end TestImpact.Selection
