import TestImpact.Selection.Strategy

/-!
# Which tests a strategy selects

Every strategy builds its set of tests by loops over sorted sets. Here each of them is said by
quantifiers over the changed classes and the records of the catalogue (`mem_byName`, `mem_byUse`,
`mem_implementations`, `mem_byImplementation`, `mem_byDependency`), and so is the list of strategies
that a configuration runs (`mem_runStrategies`).
-/

namespace TestImpact

/-- A configuration runs the strategies it lists, the transitive one only at a depth above 0. -/
theorem Config.mem_runStrategies {config : Config} {s : Strategy} :
    s ∈ config.runStrategies ↔
      s ∈ config.strategies ∧ (s = .transitive → config.effectiveDepth ≠ 0) := by
  simp only [runStrategies, enabledStrategies, List.mem_filter, List.mem_eraseDups,
    Bool.or_eq_true, decide_eq_true_eq]
  exact and_congr_right fun _ => Decidable.imp_iff_not_or.symm

namespace Selection

section
variable {c : Catalogue} {changed : NameSet} {suffixes : List String} {t x : String}

/-- A test belongs to a changed class by name if it has that class's simple name and a suffix. -/
theorem mem_byName :
    t ∈ byName suffixes changed c ↔
      ∃ f ∈ changed, ∃ s ∈ suffixes, t ∈ c.testsNamed (simpleName f ++ s) := by
  simp only [byName, NameSet.mem_ofList, List.mem_flatMap, NameSet.mem_toList, mem_testNames]
  refine ⟨?_, ?_⟩
  · rintro ⟨name, ⟨f, hf, s, hs, rfl⟩, ht⟩
    exact ⟨f, hf, s, hs, ht⟩
  · rintro ⟨f, hf, s, hs, ht⟩
    exact ⟨_, ⟨f, hf, s, hs, rfl⟩, ht⟩

/-- A test outside the set belongs to a changed class by use if it sees that class. -/
theorem mem_byUse :
    t ∈ byUse changed c ↔
      ∃ r ∈ c.tests.values, r.fqn = t ∧ r.fqn ∉ changed ∧
        ∃ f ∈ changed, (usageTier? r f).isSome = true := by
  simp only [byUse, NameSet.mem_ofList, List.mem_map, List.mem_filter, usesChanged,
    Bool.and_eq_true, decide_eq_true_eq, List.any_eq_true, NameSet.mem_toList]
  refine ⟨?_, ?_⟩
  · rintro ⟨r, ⟨hr, hn, hu⟩, rfl⟩
    exact ⟨r, hr, rfl, hn, hu⟩
  · rintro ⟨r, hr, rfl, hn, hu⟩
    exact ⟨r, ⟨hr, hn, hu⟩, rfl⟩

/-- An implementation is the class of a file that is named after a changed class, or a type that a
file declares with a supertype of a changed simple name. -/
theorem mem_implementations :
    x ∈ implementations suffixes changed c ↔
      ∃ r ∈ c.production.values,
        (r.fqn = x ∧ ∃ f ∈ changed, ∃ s ∈ suffixes, r.simpleName = simpleName f ++ s) ∨
        ∃ d ∈ r.declarations, r.declaredName d = x ∧
          ∃ raw ∈ d.supertypes, ∃ f ∈ changed, rawSimpleName raw = simpleName f := by
  simp only [implementations, NameSet.mem_ofList, List.mem_flatMap, implementationsIn,
    List.mem_append, List.mem_map, List.mem_filter, extendsOneOf, List.any_eq_true,
    NameSet.mem_toList, decide_eq_true_eq]
  refine exists_congr fun r => and_congr_right fun _ => or_congr ?_ ?_
  · simp only [List.mem_ite_nil_right, List.any_eq_true, NameSet.mem_toList, NameSet.mem_ofList,
      List.mem_map, decide_eq_true_eq, List.mem_singleton]
    refine ⟨?_, ?_⟩
    · rintro ⟨⟨_, ⟨f, hf, rfl⟩, s, hs, he⟩, rfl⟩
      exact ⟨rfl, f, hf, s, hs, he⟩
    · rintro ⟨rfl, f, hf, s, hs, he⟩
      exact ⟨⟨_, ⟨f, hf, rfl⟩, s, hs, he⟩, rfl⟩
  · constructor
    · rintro ⟨d, ⟨hd, raw, hraw, f, hf, he⟩, rfl⟩
      exact ⟨d, hd, rfl, raw, hraw, f, hf, he.symm⟩
    · rintro ⟨d, hd, rfl, raw, hraw, f, hf, he⟩
      exact ⟨d, ⟨hd, raw, hraw, f, hf, he.symm⟩, rfl⟩

/-- The tests of the implementations are taken by name and by use, as far as the rule says so. -/
theorem mem_byImplementation {rule : ImplementationRule} :
    t ∈ byImplementation rule changed c ↔
      rule.enabled = true ∧
        ((∃ ss, rule.testSuffixes = some ss ∧
            t ∈ byName ss (implementations rule.suffixes changed c) c) ∨
          (rule.byUse = true ∧ t ∈ byUse (implementations rule.suffixes changed c) c)) := by
  rw [byImplementation]
  by_cases he : rule.enabled = true
  · cases hn : rule.testSuffixes with
    | none => by_cases hu : rule.byUse = true <;> simp [he, hu]
    | some ss => by_cases hu : rule.byUse = true <;> simp [he, hu]
  · simp [he]

/-- The tests of the dependents are taken by name and by use, level by level. -/
theorem mem_byDependency {depth : Nat} :
    t ∈ byDependency depth suffixes changed c ↔
      ∃ level ∈ levels (.ofCatalogue c) changed changed depth,
        t ∈ byName suffixes level c ∨ t ∈ byUse level c := by
  have hfold : ∀ (ls : List NameSet) (found : NameSet),
      t ∈ ls.foldl (fun found l => (found.union (byName suffixes l c)).union (byUse l c)) found ↔
        t ∈ found ∨ ∃ l ∈ ls, t ∈ byName suffixes l c ∨ t ∈ byUse l c := by
    intro ls
    induction ls with
    | nil => simp
    | cons l ls ih =>
      intro found
      rw [List.foldl_cons, ih, NameSet.mem_union, NameSet.mem_union, or_assoc, or_assoc]
      simp [or_assoc]
  rw [byDependency, hfold]
  simp

end

end Selection

end TestImpact
