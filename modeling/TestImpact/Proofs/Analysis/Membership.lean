import TestImpact.Analysis
import TestImpact.Proofs.ChangedClasses
import TestImpact.Proofs.SearchRoots

/-!
# Which tests an analysis selects

An analysis selects the changed tests and, if a production class has changed, what the strategies
select in the catalogue of some search root (`mem_selected`).
-/

namespace TestImpact.Analysis

/-- The search roots of a change. -/
def searchRoots (a : Analysis) (t : FileTree) (changed : NameSet) : List Path :=
  (SearchRoots.resolve t a.project a.layout a.config.testProjectMapping changed).roots

/-- The classes found in a search root. -/
def catalogueAt (a : Analysis) (t : FileTree) (root : Path) : Catalogue :=
  (Scan.ofRoot t root a.config).catalogue

section
variable {a : Analysis} {t : FileTree} {changed production : NameSet} {x : String}

/-- A test is discovered if the strategies select it in one of the search roots. -/
theorem mem_discover :
    x ∈ a.discover t changed production ↔
      ∃ root ∈ a.searchRoots t changed,
        x ∈ Selection.selectTests a.config production (a.catalogueAt t root) := by
  rw [discover, Selection.mem_foldl_union]
  simp [searchRoots, catalogueAt]

/-- A test is selected if it has changed, or if it is discovered for a changed production class. -/
theorem mem_selected :
    x ∈ a.selected t changed ↔
      x ∈ (a.layout.changedClasses changed).testClasses ∨
        (∃ f, f ∈ (a.layout.changedClasses changed).productionClasses) ∧
          x ∈ a.discover t changed (a.layout.changedClasses changed).productionClasses := by
  rw [selected]
  by_cases he : (a.layout.changedClasses changed).productionClasses.isEmpty = true
  · have hnone : ¬∃ f, f ∈ (a.layout.changedClasses changed).productionClasses := by
      rintro ⟨f, hf⟩
      rw [← NameSet.mem_toList, List.isEmpty_iff.1 he] at hf
      exact List.not_mem_nil hf
    simp [he, hnone]
  · have hsome : ∃ f, f ∈ (a.layout.changedClasses changed).productionClasses :=
      List.exists_mem_of_ne_nil _ fun h => he (List.isEmpty_iff.2 h)
    simp [he, hsome]

end

end TestImpact.Analysis
