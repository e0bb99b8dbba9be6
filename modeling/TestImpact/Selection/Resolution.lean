import TestImpact.Catalogue

/-!
# The class that a raw type stands for

A dotted name stands for itself. A plain name stands for the class that is imported by that name, or
else for the class of the source's own package, or else for a class of a package that is imported on
demand. An imported name stands for no other class, even if the import leads nowhere.
-/

namespace TestImpact.Selection

open Java (ClassRecord)

/-- The name, if it is a production class of the catalogue. -/
def known? (c : Catalogue) (fqn : String) : Option String :=
  if c.hasProduction fqn then some fqn else none

/-- The production class that a raw type in the source `r` stands for. -/
def resolve? (c : Catalogue) (raw : String) (r : ClassRecord) : Option String :=
  let name := Java.typeHead raw
  if name.isEmpty then none
  else if '.' ∈ name.toList then known? c name
  else match r.imports.find? name with
    | some imported => known? c imported
    | none =>
      (known? c (qualify r.package name)).or
        (r.wildcardImports.toList.findSome? fun package => known? c (package ++ "." ++ name))

/-- A raw type stands for a production class of the catalogue. -/
theorem hasProduction_of_resolve? {c : Catalogue} {raw f : String} {r : ClassRecord}
    (h : resolve? c raw r = some f) : c.hasProduction f = true := by
  have hk : ∀ {g : String}, known? c g = some f → c.hasProduction f = true := by
    intro g hg
    rw [known?] at hg
    split at hg
    · next hp => cases hg; exact hp
    · cases hg
  rw [resolve?] at h
  split at h
  · cases h
  · split at h
    · exact hk h
    · split at h
      · exact hk h
      · rcases Option.or_eq_some_iff.1 h with h | ⟨_, h⟩
        · exact hk h
        · obtain ⟨_, _, h⟩ := List.exists_of_findSome?_eq_some h
          exact hk h

end TestImpact.Selection
