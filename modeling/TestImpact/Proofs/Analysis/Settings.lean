import TestImpact.Proofs.Analysis.Monotone
import TestImpact.Proofs.Selection.Settings

/-!
# More to select by, more tests

Two configurations that differ only in how tests are selected see the same changed classes, the same
search roots and the same classes there. So the analysis under the one with more strategies, more
steps and more suffixes selects every test that the other one selects, and the order of strategies
and suffixes and their repetitions do not count (`analyze_within`).
-/

namespace TestImpact.Analysis

section
variable {a b : Config} {project : Path} {x y : Analysis} {t : FileTree} {changed : NameSet}

/-- Whether a configuration can be used does not depend on how it selects tests. -/
theorem prepare_of_sameBesideSelection (hb : a.SameBesideSelection b)
    (hx : prepare a project = .ok x) : prepare b project = .ok { x with config := b } := by
  obtain ⟨strategies, depth, suffixes, rfl⟩ : ∃ s d ss, b = a.withSelection s d ss := ⟨_, _, _, hb⟩
  have hp : ∀ c : Config, prepare c project =
      (c.check >>= fun _ => Layout.ofConfig c >>= fun l =>
        .ok { config := c, layout := l, project }) :=
    fun _ => rfl
  have hc : (a.withSelection strategies depth suffixes).check = a.check := rfl
  have hl : Layout.ofConfig (a.withSelection strategies depth suffixes) = Layout.ofConfig a := rfl
  rw [hp] at hx ⊢
  rw [hc, hl]
  cases hca : a.check with
  | error e => rw [hca] at hx; cases hx
  | ok u =>
    rw [hca] at hx
    cases hla : Layout.ofConfig a with
    | error e => rw [hla] at hx; cases hx
    | ok l => rw [hla] at hx; cases hx; rfl

/-- The same classes are found in a search root. -/
theorem catalogueAt_of_sameBesideSelection (hb : x.config.SameBesideSelection b) (root : Path) :
    { x with config := b }.catalogueAt t root = x.catalogueAt t root := by
  rw [catalogueAt, hb]
  rfl

/-- The same search roots are searched. -/
theorem searchRoots_of_sameBesideSelection (hb : x.config.SameBesideSelection b) :
    { x with config := b }.searchRoots t changed = x.searchRoots t changed := by
  rw [searchRoots, hb]
  rfl

/-- In the same catalogues more tests are discovered. -/
theorem discover_within (hb : x.config.SameBesideSelection b) (h : x.config.SelectsWithin b)
    (production : NameSet) :
    x.discover t changed production ⊆ { x with config := b }.discover t changed production := by
  intro f hf
  obtain ⟨root, hroot, hsel⟩ := mem_discover.1 hf
  refine mem_discover.2 ⟨root, ?_, ?_⟩
  · rwa [searchRoots_of_sameBesideSelection hb]
  · rw [catalogueAt_of_sameBesideSelection hb]
    exact Selection.selectTests_within h hb hsel

/-- With more to select by, more tests are selected. -/
theorem selected_within (hb : x.config.SameBesideSelection b) (h : x.config.SelectsWithin b) :
    x.selected t changed ⊆ { x with config := b }.selected t changed := by
  intro f hf
  rcases mem_selected.1 hf with htest | ⟨hsome, hdisc⟩
  · exact mem_selected.2 (.inl htest)
  · exact mem_selected.2 (.inr ⟨hsome, discover_within hb h _ hdisc⟩)

/-- An impact is known from its tests and the change. -/
theorem analyze_congr (hb : x.config.SameBesideSelection b)
    (hs : x.selected t changed = { x with config := b }.selected t changed) :
    x.analyze t changed = { x with config := b }.analyze t changed := by
  have hr : b.runAllIfNoMatches = x.config.runAllIfNoMatches := by rw [hb]; rfl
  simp only [analyze, ← hs, hr]

/-- What is prepared keeps its configuration. -/
theorem config_of_prepare (hx : prepare a project = .ok x) : x.config = a := by
  cases hca : a.check with
  | error e => rw [prepare, hca] at hx; cases hx
  | ok u =>
    cases hla : Layout.ofConfig a with
    | error e => rw [prepare, hca, hla] at hx; cases hx
    | ok l => rw [prepare, hca, hla] at hx; cases hx; rfl

/-- Where a configuration can be used, so can one that differs in how tests are selected. If this
one has more to select by, it selects more; if it has the same strategies and suffixes in another
order or repeated, at the same depth, everything is the same. -/
theorem analyze_within (hb : a.SameBesideSelection b) (hx : prepare a project = .ok x) :
    ∃ y, prepare b project = .ok y ∧ ∀ (t : FileTree) (changed : NameSet),
      (a.SelectsWithin b → (x.analyze t changed).testFqns ⊆ (y.analyze t changed).testFqns) ∧
      ((∀ s, s ∈ a.strategies ↔ s ∈ b.strategies) →
        (∀ s, s ∈ a.testSuffixes ↔ s ∈ b.testSuffixes) → a.effectiveDepth = b.effectiveDepth →
          x.analyze t changed = y.analyze t changed) := by
  obtain rfl := config_of_prepare hx
  refine ⟨_, prepare_of_sameBesideSelection hb hx, fun t changed => ⟨selected_within hb, ?_⟩⟩
  intro hstrategies hsuffixes hdepth
  have hab : x.config.SelectsWithin b :=
    ⟨fun s => (hstrategies s).1, Nat.le_of_eq hdepth, fun s => (hsuffixes s).1⟩
  have hba : b.SelectsWithin x.config :=
    ⟨fun s => (hstrategies s).2, Nat.le_of_eq hdepth.symm, fun s => (hsuffixes s).2⟩
  have hb' : b.SameBesideSelection x.config := by rw [hb]; rfl
  refine analyze_congr hb (NameSet.ext_mem fun f => ⟨fun hf => selected_within hb hab hf, ?_⟩)
  -- Back to the first configuration, seen from the analysis under the second one.
  exact fun hf => selected_within (x := { x with config := b }) hb' hba hf

end

/-! ## Two configurations of one project -/

/-- A configuration that selects tests through implementations and over dependencies, in more steps
than count. -/
def narrowConfig : Config :=
  heldAnalysis.config.withSelection [.transitive, .implementation] 7 ["Test"]

/-- A configuration that selects by name, too, with a further suffix and a repeated strategy. -/
def wideConfig : Config :=
  heldAnalysis.config.withSelection [.naming, .implementation, .transitive, .naming] 9
    ["IT", "Test"]

/-- Under the first configuration the test of `B` is selected, and so it is under the second one. -/
theorem analyze_within_heldProject :
    narrowConfig.SameBesideSelection wideConfig ∧ narrowConfig.SelectsWithin wideConfig ∧
      ∃ x y, prepare narrowConfig ⟨"/p"⟩ = .ok x ∧ prepare wideConfig ⟨"/p"⟩ = .ok y ∧
        (x.analyze heldProject (.ofList ["main/A.java"])).testFqns ⊆
          (y.analyze heldProject (.ofList ["main/A.java"])).testFqns ∧
        "BTest" ∈ (x.analyze heldProject (.ofList ["main/A.java"])).testFqns ∧
        "BTest" ∈ (y.analyze heldProject (.ofList ["main/A.java"])).testFqns := by
  have hw : narrowConfig.SelectsWithin wideConfig := by
    refine ⟨?_, by decide, ?_⟩
    · intro s hs
      revert s
      decide
    · intro s hs
      obtain rfl := List.mem_singleton.1 hs
      decide
  have hx : prepare narrowConfig ⟨"/p"⟩ = .ok { heldAnalysis with config := narrowConfig } := by rfl
  obtain ⟨y, hy, hs⟩ := analyze_within (a := narrowConfig) (b := wideConfig) rfl hx
  have hsub := (hs heldProject (.ofList ["main/A.java"])).1 hw
  have hroots := searchRoots_projectOf heldFolder (.ofList ["main/A.java"]) (by decide)
  have htest : "BTest" ∈ ({ heldAnalysis with config := narrowConfig }.analyze heldProject
      (.ofList ["main/A.java"])).testFqns := by
    refine mem_selected.2 (.inr ⟨⟨"A", by decide +kernel⟩, mem_discover.2 ⟨⟨"/p"⟩, ?_, ?_⟩⟩)
    · exact List.mem_of_mem_head? (congrArg List.head? hroots)
    · simp only [catalogueAt, Scan.ofRoot, Scan.sourceFiles, Scan.foldersOf,
        FileTree.matchingFolders, heldProject, walkStart?_projectOf]
      decide +kernel
  exact ⟨rfl, hw, _, y, hx, hy, hsub, htest, hsub htest⟩

end TestImpact.Analysis
