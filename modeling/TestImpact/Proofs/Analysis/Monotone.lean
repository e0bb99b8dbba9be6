import TestImpact.Proofs.Analysis.Membership
import TestImpact.Proofs.Selection.Monotone

/-!
# A larger change never selects fewer tests

A larger change has more changed classes and more search roots, and in every search root the
strategies together select at least as many tests, provided that selection by name and by use are
among them and no test there shares its name with a production class (`analyze_testFqns_mono`).
-/

namespace TestImpact.Analysis

open Selection (TestsApart)

section
variable {a : Analysis} {t : FileTree} {changed larger : NameSet}

/-- In every search root of a change the tests are apart from the changed classes. -/
def TestsApartIn (a : Analysis) (t : FileTree) (changed : NameSet) : Prop :=
  ∀ root ∈ a.searchRoots t changed,
    TestsApart (a.catalogueAt t root) (a.layout.changedClasses changed).productionClasses

/-- What is discovered for a change is discovered for a larger one. -/
theorem discover_mono (hn : .naming ∈ a.config.strategies) (hu : .usage ∈ a.config.strategies)
    (hs : changed ⊆ larger) (ha : a.TestsApartIn t larger) :
    a.discover t changed (a.layout.changedClasses changed).productionClasses ⊆
      a.discover t larger (a.layout.changedClasses larger).productionClasses := by
  intro x hx
  obtain ⟨root, hroot, hsel⟩ := mem_discover.1 hx
  have hroot' : root ∈ a.searchRoots t larger := SearchRoots.roots_mono hs root hroot
  have hprod := Layout.productionClasses_mono (l := a.layout) hs
  exact mem_discover.2 ⟨root, hroot',
    Selection.selectTests_mono hn hu hprod (ha root hroot') hsel⟩

/-- A larger change never selects fewer tests. -/
theorem analyze_testFqns_mono (hn : .naming ∈ a.config.strategies)
    (hu : .usage ∈ a.config.strategies) (hs : changed ⊆ larger) (ha : a.TestsApartIn t larger) :
    (a.analyze t changed).testFqns ⊆ (a.analyze t larger).testFqns := by
  intro x hx
  rcases mem_selected.1 hx with htest | ⟨⟨f, hf⟩, hdisc⟩
  · exact mem_selected.2 (.inl (Layout.testClasses_mono hs htest))
  · exact mem_selected.2
      (.inr ⟨⟨f, Layout.productionClasses_mono hs hf⟩, discover_mono hn hu hs ha hdisc⟩)

end

/-! ## A class that becomes changed

In `heldProject` the class `B` holds the class `A`. While only `A` is changed, the test of `B` is
selected on the first level behind `A`; once `B` is changed too, that level is empty and the test is
selected by the name of `B`.
-/

/-- The folder of `heldProject`. -/
def heldFolder : Folder where
  items := .folder "main" (.file "A.java" "class A { }".toUTF8.toList .empty)
    (.folder "lib" (.file "B.java" "class B { A a; }".toUTF8.toList .empty)
      (.folder "test" (.file "BTest.java" "class BTest { }".toUTF8.toList .empty) .empty))

/-- The project in the folder `f`. -/
def projectOf (f : Folder) : FileTree where
  disk :=
    { items := .folder "p" f.items .empty
      wellNamed := ⟨⟨f.wellNamed.distinct, rfl, trivial⟩, by decide, f.wellNamed.proper, trivial⟩ }
  here := []

/-- A project in which the class `B` holds the class `A`, with a test of `B`. -/
def heldProject : FileTree := projectOf heldFolder

/-- The analysis of `heldProject` by all strategies. -/
def heldAnalysis : Analysis where
  config := { sourceDirs := ["main", "lib"], testDirs := ["test"], excludePaths := [] }
  layout := { sourceDirs := [["main"], ["lib"]], testDirs := [["test"]], excludes := [] }
  project := ⟨"/p"⟩

/-- The project of an example stands at its own path. -/
theorem placeOf_projectOf (f : Folder) (last : FileTree.PathEnd) :
    (projectOf f).placeOf ⟨"/p"⟩ last = .ok ["p"] := by
  have hs : FileTree.steps "/p" = ["", "p"] := by decide
  rw [FileTree.placeOf, if_neg (by decide), if_neg (by decide), if_neg (by decide), hs]
  show FileTree.follow _ _ [] last ["", "p"] = _
  rw [FileTree.follow]
  show FileTree.follow _ _ [] last ["p"] = _
  rw [FileTree.follow]
  show FileTree.follow _ _ ["p"] last [] = _
  rw [FileTree.follow]

/-- A walk of such a project starts at its folder, which counts as found. -/
theorem walkStart?_projectOf (f : Folder) :
    (projectOf f).walkStart? ⟨"/p"⟩ = some (f.items, true) := by
  rw [FileTree.walkStart?, FileTree.itemItself?, placeOf_projectOf]
  rfl

/-- A change outside all modules is searched for in the project's folder alone. -/
theorem searchRoots_projectOf (f : Folder) (changed : NameSet)
    (hm : SearchRoots.changedModules heldAnalysis.layout changed = .ofList []) :
    heldAnalysis.searchRoots (projectOf f) changed = [⟨"/p"⟩] := by
  have hr : SearchRoots.projectRoot (projectOf f) ⟨"/p"⟩ = ⟨"/p"⟩ := by
    rw [SearchRoots.projectRoot, FileTree.canonical, placeOf_projectOf]
    decide
  show (SearchRoots.resolve _ ⟨"/p"⟩ _ _ _).roots = _
  rw [SearchRoots.resolve, hr, hm]
  rfl

/-- In the example, the tests are apart from the changed classes. -/
theorem testsApartIn_heldAnalysis :
    heldAnalysis.TestsApartIn heldProject (.ofList ["main/A.java", "lib/B.java"]) := by
  intro root hroot
  rw [heldProject, searchRoots_projectOf _ _ (by decide), List.mem_singleton] at hroot
  subst hroot
  refine ⟨?_, ?_, ?_⟩ <;>
    simp only [catalogueAt, Scan.ofRoot, Scan.sourceFiles, Scan.foldersOf,
      FileTree.matchingFolders, heldProject, walkStart?_projectOf] <;>
    decide +kernel

/-- The test of `B` is selected while only `A` is changed, and it stays selected when `B` is changed
as well. -/
theorem analyze_testFqns_mono_heldProject :
    heldAnalysis.TestsApartIn heldProject (.ofList ["main/A.java", "lib/B.java"]) ∧
      (heldAnalysis.analyze heldProject (.ofList ["main/A.java"])).testFqns ⊆
        (heldAnalysis.analyze heldProject (.ofList ["main/A.java", "lib/B.java"])).testFqns ∧
      "BTest" ∈ (heldAnalysis.analyze heldProject (.ofList ["main/A.java"])).testFqns ∧
      "BTest" ∈
        (heldAnalysis.analyze heldProject (.ofList ["main/A.java", "lib/B.java"])).testFqns := by
  have hs : NameSet.ofList ["main/A.java"] ⊆ NameSet.ofList ["main/A.java", "lib/B.java"] := by
    intro x hx
    rw [NameSet.mem_ofList] at hx ⊢
    exact List.mem_cons.2 (.inl (List.mem_singleton.1 hx))
  have hmono := analyze_testFqns_mono (a := heldAnalysis) (t := heldProject) (by decide) (by decide)
    hs testsApartIn_heldAnalysis
  have htest : "BTest" ∈ (heldAnalysis.analyze heldProject (.ofList ["main/A.java"])).testFqns := by
    refine mem_selected.2 (.inr ⟨⟨"A", by decide +kernel⟩, mem_discover.2 ⟨⟨"/p"⟩, ?_, ?_⟩⟩)
    · exact List.mem_of_mem_head? (congrArg List.head? (searchRoots_projectOf _ _ (by decide)))
    · simp only [catalogueAt, Scan.ofRoot, Scan.sourceFiles, Scan.foldersOf,
        FileTree.matchingFolders, heldProject, walkStart?_projectOf]
      decide +kernel
  exact ⟨testsApartIn_heldAnalysis, hmono, htest, hmono htest⟩

end TestImpact.Analysis
