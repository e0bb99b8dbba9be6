import Mathlib.Data.List.Basic
import TestImpact.Catalogue.Scan

/-!
# What a catalogue holds

A catalogue is built from its records one after the other. Main statements: of the records of one
kind and name it holds the first (`find?_ofRecords`); by a simple name it lists exactly the tests
that have it (`listsTests_ofRecords`); and in the catalogue of a folder the record of a class is
that of the first file of the class that can be read (`find?_ofRoot`).
-/

namespace TestImpact

open Java (ClassRecord SourceKind)

section
variable {f : SourceFile} {r : ClassRecord} {rs : List ClassRecord} {c : Catalogue}
  {kind : SourceKind} {fqn simple : String} {t : FileTree} {root : Path} {config : Config}

/-! ## The record of a file -/

/-- A file and its record are known as the same class. -/
theorem SourceFile.of_record? (h : f.record? = some r) :
    r.kind = f.kind ∧ r.fqn = f.fqn ∧ r.path = f.path := by
  obtain ⟨text, -, hr⟩ := Option.bind_eq_some_iff.1 h
  rw [ClassRecord.read] at hr
  split at hr
  · cases hr
  · cases hr
    exact ⟨rfl, rfl, rfl⟩

namespace Catalogue

/-! ## The records of a catalogue -/

/-- Adding records finds what was there, or the first of them. -/
theorem find?_foldl_add :
    ((rs.foldl add c).of kind).find? fqn =
      ((c.of kind).find? fqn).or (rs.find? fun r => r.kind = kind ∧ r.fqn = fqn) := by
  induction rs generalizing c with
  | nil => simp
  | cons r rs ih =>
    rw [List.foldl_cons, ih, find_add, Option.or_assoc, List.find?_cons]
    by_cases hr : r.kind = kind ∧ r.fqn = fqn <;> simp [hr]

/-- Of the records of a kind and name a catalogue holds the first. -/
theorem find?_ofRecords :
    ((ofRecords rs).of kind).find? fqn = rs.find? fun r => r.kind = kind ∧ r.fqn = fqn := by
  have he : (empty.of kind).find? fqn = none := by cases kind <;> rfl
  rw [ofRecords, find?_foldl_add, he, Option.none_or]

/-- A catalogue holds every record under its own name. -/
theorem fqn_of_find? (kind : SourceKind) (h : ((ofRecords rs).of kind).find? fqn = some r) :
    r.fqn = fqn := by
  rw [find?_ofRecords] at h
  have hr := List.find?_some h
  exact (of_decide_eq_true hr).2

/-- A value is held just if it is held under its own name. -/
theorem mem_tests_values :
    r ∈ (ofRecords rs).tests.values ↔ (ofRecords rs).tests.find? r.fqn = some r := by
  rw [NameMap.mem_values]
  refine ⟨?_, fun h => ⟨_, h⟩⟩
  rintro ⟨k, hk⟩
  rwa [fqn_of_find? .test hk]

/-! ## The tests of a simple name -/

/-- A test is kept if it was there or is the record that is added. -/
theorem contains_tests_add :
    (c.add r).tests.contains fqn = true ↔
      c.tests.contains fqn = true ∨ r.kind = .test ∧ r.fqn = fqn := by
  have hfind : ((c.add r).of .test).find? fqn = _ := find_add
  rw [of, of] at hfind
  rw [NameMap.contains, hfind, NameMap.contains]
  by_cases hr : r.kind = .test ∧ r.fqn = fqn <;> simp [hr]

/-- A further test is listed by its simple name unless its name was taken. -/
theorem testsNamed_add :
    (c.add r).testsNamed simple =
      if r.kind = .test ∧ c.tests.contains r.fqn = false ∧ r.simpleName = simple then
        c.testsNamed simple ++ [r.fqn]
      else c.testsNamed simple := by
  rw [add]
  cases hk : r.kind with
  | production => split <;> simp [testsNamed]
  | test =>
    by_cases hc : c.tests.contains r.fqn = true
    · simp [of, hc, testsNamed]
    · by_cases hs : r.simpleName = simple
      · subst hs
        simp [of, hc, testsNamed]
      · simp [of, hc, testsNamed, hs]

/-- By a simple name exactly the tests are listed that have it. -/
def ListsTests (c : Catalogue) : Prop :=
  ∀ fqn simple, fqn ∈ c.testsNamed simple ↔
    c.tests.contains fqn = true ∧ TestImpact.simpleName fqn = simple

/-- One record more keeps the lists of simple names right. -/
theorem ListsTests.add (h : c.ListsTests) : (c.add r).ListsTests := by
  intro fqn simple
  rw [testsNamed_add, contains_tests_add]
  split
  · next hr =>
    obtain ⟨hkind, -, rfl⟩ := hr
    rw [List.mem_append, h, List.mem_singleton]
    refine ⟨?_, ?_⟩
    · rintro (⟨hc, hs⟩ | rfl)
      · exact ⟨.inl hc, hs⟩
      · exact ⟨.inr ⟨hkind, rfl⟩, rfl⟩
    · rintro ⟨hc | ⟨-, rfl⟩, hs⟩
      · exact .inl ⟨hc, hs⟩
      · exact .inr rfl
  · next hr =>
    rw [h]
    refine and_congr_left fun hs => ⟨.inl, ?_⟩
    rintro (hc | ⟨hkind, rfl⟩)
    · exact hc
    · by_contra hc
      exact hr ⟨hkind, Bool.not_eq_true _ ▸ hc, hs⟩

/-- The lists of simple names are right for any records. -/
theorem listsTests_ofRecords : (ofRecords rs).ListsTests := by
  have hfold : ∀ (rs : List ClassRecord) (c : Catalogue),
      c.ListsTests → (rs.foldl add c).ListsTests := by
    intro rs
    induction rs with
    | nil => exact fun _ hc => hc
    | cons r rs ih => exact fun c hc => ih _ hc.add
  exact hfold rs empty fun _ _ => by simp [empty, testsNamed, NameMap.contains]

end Catalogue

namespace Scan

/-! ## The catalogue of a folder -/

/-- The files that are looked for as one kind have that kind. -/
theorem kind_of_mem_sourceFiles (h : f ∈ sourceFiles t root config kind) : f.kind = kind := by
  obtain ⟨_, -, h⟩ := List.mem_flatMap.1 h
  obtain ⟨_, -, h⟩ := List.mem_filterMap.1 h
  obtain ⟨_, -, rfl⟩ := Option.map_eq_some_iff.1 h
  rfl

/-- The file gives the class, and it can be read. -/
def IsCopy (fqn : String) (f : SourceFile) : Prop := f.fqn = fqn ∧ f.record?.isSome = true

instance : DecidablePred (IsCopy fqn) := fun _ => inferInstanceAs (Decidable (_ ∧ _))

/-- The file that is found is one of them and a copy of the class. -/
theorem mem_and_isCopy_of_find? {xs : List SourceFile}
    (h : xs.find? (fun f => IsCopy fqn f) = some f) : f ∈ xs ∧ IsCopy fqn f := by
  have hcopy := List.find?_some h
  exact ⟨List.mem_of_find?_eq_some h, of_decide_eq_true hcopy⟩

/-- A record of a class is found among the files of its kind. -/
theorem find?_record (kind' : SourceKind) :
    (sourceFiles t root config kind').find?
        (fun f => f.record?.any fun r => r.kind = kind ∧ r.fqn = fqn) =
      if kind' = kind then (sourceFiles t root config kind).find? fun f => IsCopy fqn f
      else none := by
  have hany : ∀ f ∈ sourceFiles t root config kind',
      (f.record?.any fun r => r.kind = kind ∧ r.fqn = fqn) =
        decide (kind' = kind ∧ IsCopy fqn f) := by
    intro f hf
    rw [Bool.eq_iff_iff, decide_eq_true_eq, IsCopy]
    cases hr : f.record? with
    | none => simp
    | some r =>
      obtain ⟨hkind, hfqn, -⟩ := SourceFile.of_record? hr
      simp [hkind, hfqn, kind_of_mem_sourceFiles hf]
  rw [← List.head?_filter, List.filter_congr hany, List.head?_filter]
  split
  · next hk =>
    subst hk
    simp
  · next hk => simp [hk]

/-- The record of a class is that of the first of its files that can be read. -/
theorem find?_ofRoot :
    ((ofRoot t root config).catalogue.of kind).find? fqn =
      ((sourceFiles t root config kind).find? fun f => IsCopy fqn f).bind SourceFile.record? := by
  rw [ofRoot, Catalogue.find?_ofRecords, List.find?_filterMap, List.find?_append, find?_record,
    find?_record]
  cases kind <;> simp

/-- There is no record of a class just if it has no file that can be read. -/
theorem find?_ofRoot_eq_none_iff :
    ((ofRoot t root config).catalogue.of kind).find? fqn = none ↔
      ∀ f ∈ sourceFiles t root config kind, ¬IsCopy fqn f := by
  rw [find?_ofRoot]
  cases hf : (sourceFiles t root config kind).find? (fun f => IsCopy fqn f) with
  | none => exact iff_of_true rfl (by simpa using List.find?_eq_none.1 hf)
  | some f =>
    obtain ⟨hmem, hcopy⟩ := mem_and_isCopy_of_find? hf
    refine iff_of_false (fun hno => ?_) fun hno => hno f hmem hcopy
    rw [Option.bind_some, ← Option.isNone_iff_eq_none, Option.isNone_eq_false_iff.2 hcopy.2] at hno
    cases hno

end Scan

end

end TestImpact
