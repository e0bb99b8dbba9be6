import TestImpact.Selection.Resolution

/-!
# Which classes hold which

A production class depends on the classes that the types of its fields, type arguments included,
stand for. The graph leads from a class to those that depend on it. Main statement: the edges of the
graph are exactly these dependencies (`mem_dependentsOf`).
-/

namespace TestImpact.Selection

open Java (ClassRecord)

/-- The classes that the fields of a source hold, itself excepted. -/
def heldBy (c : Catalogue) (r : ClassRecord) : List String :=
  (r.fieldTypes.flatMap fun raw => raw :: Java.typeArguments raw).filterMap fun raw =>
    (resolve? c raw r).filter (· ≠ r.fqn)

/-- From a class to the classes that depend on it. -/
abbrev DependencyGraph := NameMap NameSet

namespace DependencyGraph

/-- The classes that depend on `fqn`. -/
def dependentsOf (g : DependencyGraph) (fqn : String) : NameSet := (g.find? fqn).getD .empty

/-- The graph with one more dependency. -/
def addEdge (g : DependencyGraph) (used user : String) : DependencyGraph :=
  g.insert used ((g.dependentsOf used).insert user)

/-- The number of dependencies. -/
def edgeCount (g : DependencyGraph) : Nat := g.values.foldl (fun n s => n + s.size) 0

/-- The graph of a catalogue. -/
def ofCatalogue (c : Catalogue) : DependencyGraph :=
  (c.production.values.flatMap fun r => (heldBy c r).map (·, r.fqn)).foldl
    (fun g e => addEdge g e.1 e.2) NameMap.empty

/-- An edge more adds its user to the dependents of what it uses. -/
theorem mem_dependentsOf_addEdge {g : DependencyGraph} {used user f d : String} :
    d ∈ (g.addEdge used user).dependentsOf f ↔ (used = f ∧ user = d) ∨ d ∈ g.dependentsOf f := by
  rw [dependentsOf, addEdge, NameMap.find?_insert]
  by_cases h : used = f
  · subst h
    simp [eq_comm]
  · simp [h, dependentsOf]

/-- The dependents are those of the edges that were added, and those from before. -/
theorem mem_dependentsOf_foldl {es : List (String × String)} {g : DependencyGraph} {f d : String} :
    d ∈ (es.foldl (fun g e => addEdge g e.1 e.2) g).dependentsOf f ↔
      (f, d) ∈ es ∨ d ∈ g.dependentsOf f := by
  induction es generalizing g with
  | nil => simp
  | cons e es ih =>
    rw [List.foldl_cons, ih, mem_dependentsOf_addEdge, List.mem_cons, ← or_assoc,
      or_comm (a := (f, d) ∈ es)]
    exact or_congr (or_congr ⟨fun ⟨h₁, h₂⟩ => by rw [← h₁, ← h₂], fun h => by simp [← h]⟩ .rfl) .rfl

/-- The graph leads from `f` to exactly the classes with a field that holds `f`. -/
theorem mem_dependentsOf {c : Catalogue} {f d : String} :
    d ∈ (ofCatalogue c).dependentsOf f ↔ ∃ r ∈ c.production.values, r.fqn = d ∧ f ∈ heldBy c r := by
  rw [ofCatalogue, mem_dependentsOf_foldl]
  simp only [List.mem_flatMap, List.mem_map, Prod.mk.injEq, dependentsOf, NameMap.find?_empty,
    Option.getD_none, NameSet.not_mem_empty, or_false]
  constructor
  · rintro ⟨r, hr, u, hu, rfl, rfl⟩
    exact ⟨r, hr, rfl, hu⟩
  · rintro ⟨r, hr, rfl, hu⟩
    exact ⟨r, hr, f, hu, rfl, rfl⟩

end DependencyGraph

end TestImpact.Selection
