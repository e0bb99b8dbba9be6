import TestImpact.Proofs.Selection.Dependency
import TestImpact.Proofs.Selection.Membership

/-!
# Which tests are selected by use

A test that is a changed class itself is passed over as a whole, not only as a user of itself. So of
the tests that use another changed class those outside the changed set are selected
(`mem_byUse_iff_isUser`), and a test inside it is left out whatever else it uses
(`exists_user_left_out`).
-/

namespace TestImpact.Selection

open Java (ClassRecord)

/-- The source uses a changed class other than its own. -/
def UsesOther (changed : NameSet) (r : ClassRecord) : Prop :=
  ∃ f ∈ changed, f ≠ r.fqn ∧ (usageTier? r f).isSome = true

/-- A test of the name `t` uses a changed class other than itself. -/
def IsUser (c : Catalogue) (changed : NameSet) (t : String) : Prop :=
  ∃ r ∈ c.tests.values, r.fqn = t ∧ UsesOther changed r

section
variable {c : Catalogue} {changed : NameSet} {t : String}

/-- Outside of the changed set every changed class is another one. -/
theorem mem_byUse_iff : t ∈ byUse changed c ↔ IsUser c changed t ∧ t ∉ changed := by
  rw [mem_byUse]
  refine ⟨?_, ?_⟩
  · rintro ⟨r, hr, rfl, hn, f, hf, hu⟩
    have hne : f ≠ r.fqn := fun he => hn (he ▸ hf)
    exact ⟨⟨r, hr, rfl, f, hf, hne, hu⟩, hn⟩
  · rintro ⟨⟨r, hr, rfl, f, hf, -, hu⟩, hn⟩
    exact ⟨r, hr, rfl, hn, f, hf, hu⟩

/-- Selection by use takes the tests outside of the changed set that use a changed class. It takes
all tests that use a changed class other than themselves just if no changed test is among them. -/
theorem mem_byUse_iff_isUser :
    (∀ t, t ∈ byUse changed c ↔ IsUser c changed t ∧ t ∉ changed) ∧
      ((∀ t, t ∈ byUse changed c ↔ IsUser c changed t) ↔
        ∀ r ∈ c.tests.values, r.fqn ∈ changed → ¬UsesOther changed r) := by
  refine ⟨fun t => mem_byUse_iff, ?_, ?_⟩
  · intro hall r hr hm hu
    have hs : r.fqn ∈ byUse changed c := (hall r.fqn).2 ⟨r, hr, rfl, hu⟩
    exact (mem_byUse_iff.1 hs).2 hm
  · intro hnone t
    rw [mem_byUse_iff]
    refine ⟨And.left, fun ht => ⟨ht, ?_⟩⟩
    obtain ⟨r, hr, rfl, hu⟩ := ht
    exact fun hm => hnone r hr hm hu

end

/-- A class, and a test that uses it. -/
def usedRecords : List ClassRecord :=
  [("p.Foo", "package p; class Foo \x7b \x7d", .production),
    ("p.T", "package p; class T \x7b Foo foo; \x7d", .test)].filterMap fun s =>
      (ClassRecord.read s.2.1 ⟨s.1⟩ s.1 s.2.2).toOption

/-- If both are changed, the test uses a changed class other than itself, and is not selected. -/
theorem exists_user_left_out :
    ∃ r ∈ (Catalogue.ofRecords usedRecords).tests.values,
      UsesOther (.ofList ["p.Foo", "p.T"]) r ∧
        r.fqn ∉ byUse (.ofList ["p.Foo", "p.T"]) (.ofRecords usedRecords) := by
  have hv : ((Catalogue.ofRecords usedRecords).tests.find? "p.T").map
      (fun r => r.fqn = "p.T" && (usageTier? r "p.Foo").isSome) = some true := by
    decide +kernel
  obtain ⟨r, hr, hv⟩ := Option.map_eq_some_iff.1 hv
  rw [Bool.and_eq_true, decide_eq_true_eq] at hv
  obtain ⟨hfqn, hu⟩ := hv
  refine ⟨r, NameMap.mem_values.2 ⟨_, hr⟩, ⟨"p.Foo", by decide, ?_, hu⟩, ?_⟩
  · rw [hfqn]
    decide
  · intro hs
    refine (mem_byUse_iff.1 hs).2 ?_
    rw [hfqn]
    decide

end TestImpact.Selection
