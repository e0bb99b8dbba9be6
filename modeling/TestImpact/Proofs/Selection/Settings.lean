import TestImpact.Proofs.Selection.Membership

/-!
# What the settings of the selection do

Three settings say which tests are selected: the strategies, the number of steps of the transitive
one, and the suffixes of tests. The strategies are not independent of each other: the one through
implementations takes tests by name and by use only where these two are enabled as well, and the
transitive one is left out at depth 0. Still more of each setting never selects less in a catalogue
(`selectTests_within`). For the transitive strategy this holds because a deeper search
goes through the same levels first (`mem_levels_of_le`).
-/

namespace TestImpact

namespace Config

/-- The configuration with other strategies, another depth and other suffixes of tests. -/
def withSelection (c : Config) (strategies : List Strategy) (depth : Int)
    (suffixes : List String) : Config :=
  { c with strategies, transitiveDepth := depth, testSuffixes := suffixes }

/-- The configurations agree but for the strategies, the depth and the suffixes of tests. -/
def SameBesideSelection (a b : Config) : Prop :=
  b = a.withSelection b.strategies b.transitiveDepth b.testSuffixes

/-- The first configuration has no strategy, no step and no suffix that the second one lacks. -/
structure SelectsWithin (a b : Config) : Prop where
  strategies : a.strategies ⊆ b.strategies
  depth : a.effectiveDepth ≤ b.effectiveDepth
  suffixes : a.testSuffixes ⊆ b.testSuffixes

section
variable {a b : Config}

/-- No strategy is run for the narrower settings alone. -/
theorem SelectsWithin.runStrategies (h : a.SelectsWithin b) :
    a.runStrategies ⊆ b.runStrategies := by
  intro s hs
  obtain ⟨hm, hd⟩ := mem_runStrategies.1 hs
  have hdepth := h.depth
  exact mem_runStrategies.2 ⟨h.strategies hm, fun ht => by have := hd ht; omega⟩

/-- A strategy that is enabled stays enabled with wider settings. -/
theorem SelectsWithin.isEnabled {s : Strategy} (h : a.SelectsWithin b)
    (hs : a.isEnabled s = true) : b.isEnabled s = true :=
  List.contains_iff_mem.2 (h.strategies (List.contains_iff_mem.1 hs))

end

end Config

namespace Selection

section
variable {c : Catalogue} {changed : NameSet} {suffixes more : List String} {t : String}

/-! ## More suffixes, more steps -/

/-- More suffixes give more names to look for. -/
theorem byName_of_suffixes (h : suffixes ⊆ more) :
    byName suffixes changed c ⊆ byName more changed c := by
  intro t ht
  obtain ⟨f, hf, s, hs, hn⟩ := mem_byName.1 ht
  exact mem_byName.2 ⟨f, hf, s, h hs, hn⟩

/-- A deeper search goes through the levels of a shallower one. -/
theorem mem_levels_of_le {g : DependencyGraph} {met frontier level : NameSet} {m n : Nat}
    (hmn : m ≤ n) (h : level ∈ levels g met frontier m) : level ∈ levels g met frontier n := by
  induction m generalizing met frontier n with
  | zero => exact absurd h List.not_mem_nil
  | succ m ih =>
    obtain ⟨n, rfl⟩ : ∃ k, n = k + 1 := ⟨n - 1, by omega⟩
    rw [levels] at h ⊢
    split
    · next he => rwa [if_pos he] at h
    · next he =>
      rw [if_neg he] at h
      rcases List.mem_cons.1 h with rfl | h
      · exact List.mem_cons_self
      · exact List.mem_cons_of_mem _ (ih (by omega) h)

/-- A greater depth and further suffixes select no fewer tests. -/
theorem byDependency_of_le {m n : Nat} (hmn : m ≤ n) (hs : suffixes ⊆ more) :
    byDependency m suffixes changed c ⊆ byDependency n more changed c := by
  intro t ht
  obtain ⟨level, hl, ht⟩ := mem_byDependency.1 ht
  exact mem_byDependency.2
    ⟨level, mem_levels_of_le hmn hl, ht.imp_left fun h => byName_of_suffixes hs h⟩

/-! ## Implementations -/

/-- A rule takes a part of the tests that another one takes, of the same implementations. -/
structure ImplementationRule.TakesWithin (r r' : ImplementationRule) : Prop where
  enabled : r.enabled = r'.enabled
  suffixes : r.suffixes = r'.suffixes
  testSuffixes : ∀ ss ∈ r.testSuffixes, ∃ ss' ∈ r'.testSuffixes, ss ⊆ ss'
  byUse : r.byUse = true → r'.byUse = true

/-- A rule that takes more selects no fewer tests. -/
theorem ImplementationRule.TakesWithin.byImplementation {r r' : ImplementationRule}
    (h : r.TakesWithin r') : byImplementation r changed c ⊆ byImplementation r' changed c := by
  intro t ht
  obtain ⟨he, ht⟩ := mem_byImplementation.1 ht
  rw [h.suffixes] at ht
  refine mem_byImplementation.2 ⟨h.enabled ▸ he, ?_⟩
  rcases ht with ⟨ss, hss, ht⟩ | ⟨hu, ht⟩
  · obtain ⟨ss', hss', hsub⟩ := h.testSuffixes ss hss
    exact .inl ⟨ss', hss', byName_of_suffixes hsub ht⟩
  · exact .inr ⟨h.byUse hu, ht⟩

end

/-! ## All strategies -/

section
variable {a b : Config} {c : Catalogue} {changed : NameSet}

/-- Wider settings give a rule that takes more. -/
theorem implementationRule_within (hb : a.SameBesideSelection b) (h : a.SelectsWithin b) :
    (implementationRule a).TakesWithin (implementationRule b) where
  enabled := by rw [hb]; rfl
  suffixes := by rw [hb]; rfl
  testSuffixes ss hss := by
    have hn : a.isEnabled .naming = true ∧ a.testSuffixes = ss := by
      simpa [implementationRule] using hss
    refine ⟨b.testSuffixes, ?_, hn.2 ▸ h.suffixes⟩
    simp [implementationRule, h.isEnabled hn.1]
  byUse := h.isEnabled

/-- With more strategies, steps and suffixes, every strategy selects at least as many tests. -/
theorem byStrategy_within (hb : a.SameBesideSelection b) (h : a.SelectsWithin b) (s : Strategy) :
    byStrategy a changed c s ⊆ byStrategy b changed c s := by
  cases s with
  | naming => exact byName_of_suffixes h.suffixes
  | usage => exact fun _ ht => ht
  | implementation => exact (implementationRule_within hb h).byImplementation
  | transitive => exact byDependency_of_le h.depth h.suffixes

/-- With more strategies, steps and suffixes at least as many tests are selected. -/
theorem selectTests_within (h : a.SelectsWithin b)
    (hb : a.SameBesideSelection b) : selectTests a changed c ⊆ selectTests b changed c := by
  intro t ht
  obtain ⟨s, hs, ht⟩ := mem_selectTests.1 ht
  exact mem_selectTests.2 ⟨s, h.runStrategies hs, byStrategy_within hb h s ht⟩

end

end Selection

end TestImpact
