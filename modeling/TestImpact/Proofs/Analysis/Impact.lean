import TestImpact.Proofs.Analysis.Settings
import TestImpact.Proofs.Catalogue.Records

/-!
# What an impact consists of

Changed, implementing and dependent classes are what tests are looked for; no strategy takes
anything but tests of the catalogue (`Selection.contains_of_mem_selectTests`), and these are classes
of files in test folders. Main statement: what the impact of a change consists of, in every tree,
under every configuration that can be used (`analyze_isImpactOf`).
-/

namespace TestImpact

open Java (ClassRecord)

namespace Selection

section
variable {rs : List ClassRecord} {config : Config} {changed : NameSet} {suffixes : List String}
  {x : String}

/-! ## Only tests are selected -/

/-- What is selected by name is a known test. -/
theorem contains_of_mem_byName (h : x ∈ byName suffixes changed (.ofRecords rs)) :
    (Catalogue.ofRecords rs).tests.contains x = true := by
  obtain ⟨f, -, s, -, hx⟩ := mem_byName.1 h
  exact (Catalogue.listsTests_ofRecords x _).1 hx |>.1

/-- What is selected for its use of a class is a known test. -/
theorem contains_of_mem_byUse (h : x ∈ byUse changed (.ofRecords rs)) :
    (Catalogue.ofRecords rs).tests.contains x = true := by
  obtain ⟨r, hr, rfl, -⟩ := mem_byUse.1 h
  rw [NameMap.contains, Catalogue.mem_tests_values.1 hr]
  rfl

/-- Every strategy selects tests, whatever classes it goes through. -/
theorem contains_of_mem_byStrategy {s : Strategy}
    (h : x ∈ byStrategy config changed (.ofRecords rs) s) :
    (Catalogue.ofRecords rs).tests.contains x = true := by
  cases s with
  | naming => exact contains_of_mem_byName h
  | usage => exact contains_of_mem_byUse h
  | implementation =>
    obtain ⟨-, ⟨_, -, hx⟩ | ⟨-, hx⟩⟩ := mem_byImplementation.1 h
    · exact contains_of_mem_byName hx
    · exact contains_of_mem_byUse hx
  | transitive =>
    obtain ⟨_, -, hx | hx⟩ := mem_byDependency.1 h
    · exact contains_of_mem_byName hx
    · exact contains_of_mem_byUse hx

/-- Whatever is selected is a known test. -/
theorem contains_of_mem_selectTests (h : x ∈ selectTests config changed (.ofRecords rs)) :
    (Catalogue.ofRecords rs).tests.contains x = true := by
  obtain ⟨s, -, hx⟩ := mem_selectTests.1 h
  exact contains_of_mem_byStrategy hx

end

end Selection

namespace Analysis

/-- The class of a file in a test folder of the root: of the first such file that can be read, whose
record is the one that counts for the class. -/
def IsTestOf (t : FileTree) (config : Config) (root : Path) (x : String) : Prop :=
  ∃ f ∈ Scan.sourceFiles t root config .test, f.fqn = x ∧ ∃ r, f.record? = some r ∧
    (Scan.ofRoot t root config).catalogue.tests.find? x = some r

/-- What the impact of changed paths consists of. -/
structure IsImpactOf (config : Config) (a : Analysis) (t : FileTree) (changed : NameSet)
    (impact : Impact) : Prop where
  changedFiles_eq : impact.changedFiles = changed
  /-- Every changed test is selected. -/
  changed_subset : impact.changedTestClasses ⊆ impact.testFqns
  /-- What else is selected is a test of a search root. -/
  isTestOf : ∀ x ∈ impact.testFqns, x ∉ impact.changedTestClasses →
    ∃ root ∈ a.searchRoots t changed, IsTestOf t config root x
  /-- Where no changed path holds a production class, nothing else is selected, in no tree. -/
  testFqns_eq : (∀ p ∈ changed, ∀ fqn, a.layout.changedClass? p ≠ some (.production, fqn)) →
    ∀ t', (a.analyze t' changed).testFqns = impact.changedTestClasses
  runAll_iff : impact.runAll = true ↔
    impact.testFqns = .empty ∧ config.runAllIfNoMatches = true

section
variable {config : Config} {a : Analysis} {t : FileTree} {changed production : NameSet}
  {root project : Path} {x : String}

/-- A test of the catalogue of a root is the class of a file in its test folders. -/
theorem isTestOf_of_find? {r : ClassRecord}
    (h : (Scan.ofRoot t root config).catalogue.tests.find? x = some r) :
    IsTestOf t config root x := by
  have hfirst : ((Scan.ofRoot t root config).catalogue.of .test).find? x = _ := Scan.find?_ofRoot
  rw [Catalogue.of, h] at hfirst
  obtain ⟨f, hf, hr⟩ := Option.bind_eq_some_iff.1 hfirst.symm
  obtain ⟨hmem, hcopy⟩ := Scan.mem_and_isCopy_of_find? hf
  exact ⟨f, hmem, hcopy.1, r, hr, h⟩

/-- What is discovered are tests of the search roots. -/
theorem isTestOf_of_mem_discover (h : x ∈ a.discover t changed production) :
    ∃ root ∈ a.searchRoots t changed, IsTestOf t a.config root x := by
  obtain ⟨root, hroot, hx⟩ := mem_discover.1 h
  obtain ⟨r, hr⟩ := Option.isSome_iff_exists.1 (Selection.contains_of_mem_selectTests hx)
  exact ⟨root, hroot, isTestOf_of_find? hr⟩

/-- What the impact of a change consists of: the changed paths; the changed tests; apart from them
tests of the search roots alone, and none without a changed production class; and all tests are
asked for exactly if none is selected and the configuration says so. -/
theorem analyze_isImpactOf (h : prepare config project = .ok a) (t : FileTree) (changed : NameSet) :
    IsImpactOf config a t changed (a.analyze t changed) := by
  obtain rfl := config_of_prepare h
  refine ⟨rfl, fun x hx => mem_selected.2 (.inl hx), fun x hx hnot => ?_, fun hno t' => ?_, ?_⟩
  · rcases mem_selected.1 hx with hx | ⟨-, hx⟩
    · exact absurd hx hnot
    · exact isTestOf_of_mem_discover hx
  · refine NameSet.ext_mem fun x => mem_selected.trans (or_iff_left ?_)
    rintro ⟨⟨f, hf⟩, -⟩
    obtain ⟨p, hp, hc⟩ := Layout.mem_productionClasses.1 hf
    exact hno p hp f hc
  · rw [analyze, Bool.and_eq_true, NameSet.isEmpty_iff]

end

/-! ## A test of a search root -/

/-- The test `BTest` has not changed. It is selected, and it is a test of the one search root. -/
theorem analyze_isImpactOf_heldProject :
    prepare heldAnalysis.config ⟨"/p"⟩ = .ok heldAnalysis ∧
      "BTest" ∈
        (heldAnalysis.analyze heldProject (.ofList ["main/A.java", "lib/B.java"])).testFqns ∧
      IsTestOf heldProject heldAnalysis.config ⟨"/p"⟩ "BTest" := by
  have hprepare : prepare heldAnalysis.config ⟨"/p"⟩ = .ok heldAnalysis := by rfl
  have hroots := searchRoots_projectOf heldFolder
    (.ofList ["main/A.java", "lib/B.java"]) (by decide)
  have hselected : "BTest" ∈
      (heldAnalysis.analyze heldProject (.ofList ["main/A.java", "lib/B.java"])).testFqns := by
    refine mem_selected.2 (.inr ⟨⟨"A", by decide +kernel⟩, mem_discover.2 ⟨⟨"/p"⟩, ?_, ?_⟩⟩)
    · exact List.mem_of_mem_head? (congrArg List.head? hroots)
    · simp only [catalogueAt, Scan.ofRoot, Scan.sourceFiles, Scan.foldersOf,
        FileTree.matchingFolders, heldProject, walkStart?_projectOf]
      decide +kernel
  refine ⟨hprepare, hselected, ?_⟩
  obtain ⟨root, hroot, htest⟩ :=
    (analyze_isImpactOf hprepare heldProject _).isTestOf "BTest" hselected (by decide +kernel)
  obtain rfl := List.mem_singleton.1 (hroots ▸ hroot : root ∈ [⟨"/p"⟩])
  exact htest

end Analysis

end TestImpact
