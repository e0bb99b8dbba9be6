import TestImpact.Layout

/-!
# The classes of a change

Each changed path is mapped on its own, so the classes of a change are those of its paths
(`mem_productionClasses`, `mem_testClasses`), and the modules of a change are those around its paths
(`mem_changedModules`). A larger change has more of both.
-/

namespace TestImpact.Layout

open Java (SourceKind)

section
variable {l : Layout} {changed larger : NameSet} {kind : SourceKind} {path fqn : String}

/-- A path counts for a kind with its class if that is the class it holds. -/
theorem mem_changedOf :
    (path, fqn) ∈ l.changedOf kind changed ↔
      path ∈ changed ∧ l.changedClass? path = some (kind, fqn) := by
  simp only [changedOf, List.mem_filterMap, NameSet.mem_toList]
  refine ⟨?_, ?_⟩
  · rintro ⟨p, hp, h⟩
    split at h
    · next k f hc =>
      split at h
      · next hk => cases h; exact ⟨hp, by rw [hc, hk]⟩
      · cases h
    · cases h
  · rintro ⟨hp, hc⟩
    exact ⟨path, hp, by simp [hc]⟩

/-- The changed production classes are those that the changed paths hold. -/
theorem mem_productionClasses :
    fqn ∈ (l.changedClasses changed).productionClasses ↔
      ∃ p ∈ changed, l.changedClass? p = some (.production, fqn) := by
  simp only [changedClasses, NameSet.mem_ofList, List.mem_map, Prod.exists, exists_eq_right,
    mem_changedOf]

/-- The changed test classes are those that the changed paths hold. -/
theorem mem_testClasses :
    fqn ∈ (l.changedClasses changed).testClasses ↔
      ∃ p ∈ changed, l.changedClass? p = some (.test, fqn) := by
  simp only [changedClasses, NameSet.mem_ofList, List.mem_map, Prod.exists, exists_eq_right,
    mem_changedOf]

/-- More changed files change no fewer production classes. -/
theorem productionClasses_mono (hs : changed ⊆ larger) :
    (l.changedClasses changed).productionClasses ⊆ (l.changedClasses larger).productionClasses := by
  intro f hf
  obtain ⟨p, hp, hc⟩ := mem_productionClasses.1 hf
  exact mem_productionClasses.2 ⟨p, hs hp, hc⟩

/-- More changed files change no fewer test classes. -/
theorem testClasses_mono (hs : changed ⊆ larger) :
    (l.changedClasses changed).testClasses ⊆ (l.changedClasses larger).testClasses := by
  intro f hf
  obtain ⟨p, hp, hc⟩ := mem_testClasses.1 hf
  exact mem_testClasses.2 ⟨p, hs hp, hc⟩

end

end TestImpact.Layout
