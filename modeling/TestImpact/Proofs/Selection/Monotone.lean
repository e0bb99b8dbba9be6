import TestImpact.Proofs.Selection.Distance
import TestImpact.Proofs.Selection.Membership

/-!
# A larger change selects more

With more changed classes, every strategy but the transitive one selects at least the tests it
selected before, as long as no test is itself taken for a changed class or an implementation
(`TestsApart`): selection by use leaves such tests out. The transitive strategy alone is not
monotone. A class that becomes changed leaves the levels, and the classes behind it come nearer;
what it selected there is then selected by name and by use from the changed class itself. So the
strategies together are monotone wherever selection by name and by use are among them
(`selectTests_mono`).
-/

namespace TestImpact.Selection

open Java (ClassRecord)

/-- No test of the catalogue has the name of a changed class, of the class of a production file, or
of a type that a production file declares. -/
structure TestsApart (c : Catalogue) (changed : NameSet) : Prop where
  not_changed : ∀ r ∈ c.tests.values, r.fqn ∉ changed
  ne_production : ∀ r ∈ c.tests.values, ∀ p ∈ c.production.values, r.fqn ≠ p.fqn
  ne_declared : ∀ r ∈ c.tests.values, ∀ p ∈ c.production.values, ∀ d ∈ p.declarations,
    r.fqn ≠ p.declaredName d

section
variable {c : Catalogue} {changed larger : NameSet} {suffixes : List String} {t x : String}

/-! ## One strategy -/

/-- More changed classes select no fewer tests by name. -/
theorem byName_mono (hs : changed ⊆ larger) :
    byName suffixes changed c ⊆ byName suffixes larger c := by
  intro t ht
  obtain ⟨f, hf, hrest⟩ := mem_byName.1 ht
  exact mem_byName.2 ⟨f, hs hf, hrest⟩

/-- Selection by use is monotone as far as no test is in the larger set. -/
theorem byUse_mono (hs : changed ⊆ larger) (ha : ∀ r ∈ c.tests.values, r.fqn ∉ larger) :
    byUse changed c ⊆ byUse larger c := by
  intro t ht
  obtain ⟨r, hr, rfl, -, f, hf, hu⟩ := mem_byUse.1 ht
  exact mem_byUse.2 ⟨r, hr, rfl, ha r hr, f, hs hf, hu⟩

/-- More changed classes have no fewer implementations. -/
theorem implementations_mono (hs : changed ⊆ larger) :
    implementations suffixes changed c ⊆ implementations suffixes larger c := by
  intro x hx
  obtain ⟨r, hr, ⟨hx, f, hf, hrest⟩ | ⟨d, hd, hx, raw, hraw, f, hf, he⟩⟩ := mem_implementations.1 hx
  · exact mem_implementations.2 ⟨r, hr, .inl ⟨hx, f, hs hf, hrest⟩⟩
  · exact mem_implementations.2 ⟨r, hr, .inr ⟨d, hd, hx, raw, hraw, f, hs hf, he⟩⟩

/-- An implementation is never a test. -/
theorem TestsApart.not_implementation (ha : TestsApart c larger) :
    ∀ r ∈ c.tests.values, r.fqn ∉ implementations suffixes changed c := by
  intro r hr hx
  obtain ⟨p, hp, ⟨he, -⟩ | ⟨d, hd, he, -⟩⟩ := mem_implementations.1 hx
  · exact ha.ne_production r hr p hp he.symm
  · exact ha.ne_declared r hr p hp d hd he.symm

/-- More changed classes select no fewer tests through implementations, if tests stay apart. -/
theorem byImplementation_mono {rule : ImplementationRule} (hs : changed ⊆ larger)
    (ha : TestsApart c larger) :
    byImplementation rule changed c ⊆ byImplementation rule larger c := by
  intro t ht
  have hi : implementations rule.suffixes changed c ⊆ implementations rule.suffixes larger c :=
    implementations_mono hs
  obtain ⟨he, ⟨ss, hss, ht⟩ | ⟨hu, ht⟩⟩ := mem_byImplementation.1 ht
  · exact mem_byImplementation.2 ⟨he, .inl ⟨ss, hss, byName_mono hi ht⟩⟩
  · exact mem_byImplementation.2 ⟨he, .inr ⟨hu, byUse_mono hi ha.not_implementation ht⟩⟩

/-! ## The transitive strategy -/

/-- A class at a distance above 0 holds another one, so it is a production class. -/
theorem AtDistance.mem_production {n : Nat} (h1 : 1 ≤ n)
    (h : AtDistance (.ofCatalogue c) changed n x) : ∃ p ∈ c.production.values, p.fqn = x := by
  obtain ⟨m, rfl⟩ := Nat.exists_eq_add_of_le h1
  rw [Nat.add_comm] at h
  obtain ⟨y, -, hx⟩ := h.pred
  obtain ⟨p, hp, he, -⟩ := DependencyGraph.mem_dependentsOf.1 hx
  exact ⟨p, hp, he⟩

/-- A test of a dependent within the depth is selected, unless it is a production class itself. -/
theorem mem_byDependency_of_level {depth m : Nat} {f : String} (ha : TestsApart c larger)
    (h1 : 1 ≤ m) (hm : m ≤ depth) (hd : AtDistance (.ofCatalogue c) changed m f)
    (ht : (∃ s ∈ suffixes, t ∈ c.testsNamed (simpleName f ++ s)) ∨
      ∃ r ∈ c.tests.values, r.fqn = t ∧ (usageTier? r f).isSome = true) :
    t ∈ byDependency depth suffixes changed c := by
  obtain ⟨level, hl, hf⟩ := mem_levels_iff.2 ⟨m, h1, hm, hd⟩
  refine mem_byDependency.2 ⟨level, hl, ?_⟩
  rcases ht with ⟨s, hs, ht⟩ | ⟨r, hr, rfl, hu⟩
  · exact .inl (mem_byName.2 ⟨f, hf, s, hs, ht⟩)
  · refine .inr (mem_byUse.2 ⟨r, hr, rfl, fun hmem => ?_, f, hf, hu⟩)
    obtain ⟨n, hn, -, hdn⟩ := mem_levels_iff.1 ⟨level, hl, hmem⟩
    obtain ⟨p, hp, he⟩ := hdn.mem_production hn
    exact ha.ne_production r hr p hp he.symm

/-- What the transitive strategy selects for fewer changed classes is selected for more of them, by
the same strategy or by name or use. -/
theorem byDependency_subset {depth : Nat} (hs : changed ⊆ larger) (ha : TestsApart c larger)
    (ht : t ∈ byDependency depth suffixes changed c) :
    t ∈ byDependency depth suffixes larger c ∨ t ∈ byName suffixes larger c ∨
      t ∈ byUse larger c := by
  obtain ⟨level, hl, ht⟩ := mem_byDependency.1 ht
  -- The one class of the level that selects `t`, and how it does.
  obtain ⟨f, hf, hsel⟩ : ∃ f ∈ level, (∃ s ∈ suffixes, t ∈ c.testsNamed (simpleName f ++ s)) ∨
      ∃ r ∈ c.tests.values, r.fqn = t ∧ (usageTier? r f).isSome = true := by
    rcases ht with ht | ht
    · obtain ⟨f, hf, hname⟩ := mem_byName.1 ht
      exact ⟨f, hf, .inl hname⟩
    · obtain ⟨r, hr, he, -, f, hf, hu⟩ := mem_byUse.1 ht
      exact ⟨f, hf, .inr ⟨r, hr, he, hu⟩⟩
  obtain ⟨n, -, hn, hd⟩ := mem_levels_iff.1 ⟨level, hl, hf⟩
  rcases hd.of_subset hs with hmem | ⟨m, h1, hm, hd'⟩
  · rcases hsel with ⟨s, hs, hname⟩ | ⟨r, hr, rfl, hu⟩
    · exact .inr (.inl (mem_byName.2 ⟨f, hmem, s, hs, hname⟩))
    · exact .inr (.inr (mem_byUse.2 ⟨r, hr, rfl, ha.not_changed r hr, f, hmem, hu⟩))
  · exact .inl (mem_byDependency_of_level ha h1 (Nat.le_trans hm hn) hd' hsel)

/-! ## All strategies -/

/-- With selection by name and by use among the strategies, a larger set of changed classes selects
every test that a smaller one selects. -/
theorem selectTests_mono {config : Config} (hn : .naming ∈ config.strategies)
    (hu : .usage ∈ config.strategies) (hs : changed ⊆ larger) (ha : TestsApart c larger) :
    selectTests config changed c ⊆ selectTests config larger c := by
  intro t ht
  obtain ⟨strategy, hrun, ht⟩ := mem_selectTests.1 ht
  have hnaming : Strategy.naming ∈ config.runStrategies := Config.mem_runStrategies.2 ⟨hn, nofun⟩
  have husage : Strategy.usage ∈ config.runStrategies := Config.mem_runStrategies.2 ⟨hu, nofun⟩
  rw [mem_selectTests]
  cases strategy with
  | naming => exact ⟨.naming, hrun, byName_mono hs ht⟩
  | usage => exact ⟨.usage, hrun, byUse_mono hs ha.not_changed ht⟩
  | implementation => exact ⟨.implementation, hrun, byImplementation_mono hs ha ht⟩
  | transitive =>
    rcases byDependency_subset hs ha ht with h | h | h
    · exact ⟨.transitive, hrun, h⟩
    · exact ⟨.naming, hnaming, h⟩
    · exact ⟨.usage, husage, h⟩

end

end TestImpact.Selection
