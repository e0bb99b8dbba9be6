import TestImpact.Text.Pieces

/-!
# Qualified names

A qualified name is a text in which dots separate the segments: `com.example.Foo` is the class `Foo`
of the package `com.example`. Main statements: a name with a dot is its package, a dot and its
simple name (`packageOf_append_simpleName`), and its package is what can be put in front of a last
segment (`packageOf_eq`).
-/

namespace TestImpact

/-- The last segment of a qualified name. -/
def simpleName (fqn : String) : String := .ofList (afterLast '.' fqn.toList)

/-- All segments of a qualified name but the last one. -/
def packageOf (fqn : String) : String := .ofList (beforeLast '.' fqn.toList)

/-- `name` inside `outer`; an empty `outer` is the default package. -/
def qualify (outer name : String) : String :=
  if outer.isEmpty then name else outer ++ "." ++ name

/-- The package and the simple name make up a name that has a package. -/
theorem packageOf_append_simpleName {fqn : String} (h : '.' ∈ fqn.toList) :
    packageOf fqn ++ "." ++ simpleName fqn = fqn := by
  rw [← String.toList_inj]
  simpa [packageOf, simpleName] using beforeLast_append_afterLast h

/-- The package of a name, if it is not empty, is what stands in front of a dot and a last
segment. -/
theorem packageOf_eq {fqn p : String} (hp : p ≠ "") :
    packageOf fqn = p ↔ ∃ segment : String, '.' ∉ segment.toList ∧ fqn = p ++ "." ++ segment := by
  refine ⟨?_, ?_⟩
  · rintro rfl
    have hm : '.' ∈ fqn.toList := by
      refine Decidable.byContradiction fun hm => hp ?_
      rw [packageOf, beforeLast_of_not_mem hm, String.ofList_nil]
    refine ⟨simpleName fqn, fun hs => ?_, (packageOf_append_simpleName hm).symm⟩
    rw [simpleName, String.toList_ofList] at hs
    exact not_mem_afterLast '.' fqn.toList hs
  · rintro ⟨segment, hs, rfl⟩
    have hb : beforeLast '.' (p.toList ++ '.' :: segment.toList) = p.toList :=
      beforeLast_append_cons hs
    rw [packageOf, ← String.toList_inj, String.toList_ofList]
    simpa using hb

end TestImpact
