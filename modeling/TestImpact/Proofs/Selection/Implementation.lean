import TestImpact.Proofs.Catalogue.Records
import TestImpact.Proofs.Java.DeclaredNames
import TestImpact.Proofs.Selection.Resolution

/-!
# Tests of nested implementations

The name of a declared type is that of its package and of the types around it. Selection by use
takes a name apart again, and everything in front of its last dot for the package. So the tests in a
package are selected for the types that stand in it on their own, while an implementation inside
another type counts as one of a package with the name of that type. Main statement: which tests are
selected for a declared implementation, on its own or nested (`mem_byImplementation_of_declared`).
-/

namespace TestImpact

open Java (ClassRecord TypeDecl)

namespace Java.ClassRecord

/-- The record is that of a source that has been read. -/
def IsRead (r : ClassRecord) : Prop :=
  ∃ text path fqn kind, ClassRecord.read text path fqn kind = .ok r

/-- The source sees the types of the package: it is its own one, or it is imported on demand. -/
def Sees (r : ClassRecord) (package : String) : Prop :=
  r.package = package ∨ package ∈ r.wildcardImports

end Java.ClassRecord

section
variable {r t : ClassRecord} {d o : TypeDecl} {rs : List ClassRecord} {changed : NameSet}
  {rule : Selection.ImplementationRule} {f : String}

/-! ## Declared names -/

namespace Selection

/-- The name of what stands in a package on its own is taken apart into the package and the type. -/
theorem parts_of_topLevel (hn : IsSegment d.name) (h : d.qualified = d.name) :
    packageOf (r.declaredName d) = r.package ∧ simpleName (r.declaredName d) = d.name := by
  rw [ClassRecord.declaredName, h]
  exact ⟨packageOf_qualify hn.no_dot, simpleName_qualify hn.no_dot⟩

/-- The name of what stands in a type is taken apart as if that type were a package. -/
theorem parts_of_isInside (hn : IsSegment d.name) (h : d.IsInside o) :
    packageOf (r.declaredName d) = r.declaredName o ∧ simpleName (r.declaredName d) = d.name := by
  rw [h.declaredName]
  exact ⟨packageOf_append hn.no_dot, simpleName_append hn.no_dot⟩

/-- A source that mentions a type uses it if it imports it, or sees what stands in front of its
name. -/
theorem isSome_usageTier?_of_mem (hm : simpleName f ∈ t.typeRefs) :
    (usageTier? t f).isSome = true ↔ f ∈ t.imports.values ∨ t.Sees (packageOf f) := by
  rw [isSome_usageTier?_iff, ClassRecord.Sees, eq_comm (a := t.package)]
  simp [hm]

/-! ## Tests of implementations -/

/-- The type has a supertype of the simple name of a changed class. -/
def Implements (changed : NameSet) (d : TypeDecl) : Prop :=
  ∃ raw ∈ d.supertypes, ∃ f ∈ changed, rawSimpleName raw = simpleName f

/-- The test is selected for its own name, or for its use of an implementation other than `x`. -/
def SelectedBeside (rule : ImplementationRule) (changed : NameSet) (c : Catalogue) (x : String)
    (t : ClassRecord) : Prop :=
  (∃ suffixes, rule.testSuffixes = some suffixes ∧
    t.fqn ∈ byName suffixes (implementations rule.suffixes changed c) c) ∨
  ∃ y ∈ implementations rule.suffixes changed c, y ≠ x ∧ (usageTier? t y).isSome = true

/-- The production classes of a catalogue have been read if all records have. -/
theorem isRead_of_mem_production (hrs : ∀ r ∈ rs, r.IsRead)
    (hr : r ∈ (Catalogue.ofRecords rs).production.values) : r.IsRead := by
  obtain ⟨k, hk⟩ := NameMap.mem_values.1 hr
  have hfind : ((Catalogue.ofRecords rs).of .production).find? k = some r := hk
  rw [Catalogue.find?_ofRecords] at hfind
  exact hrs r (List.mem_of_find?_eq_some hfind)

/-- What a test outside of the implementations is selected for: its use of the implementation `f`,
or something beside it. -/
theorem mem_byImplementation_iff (he : rule.enabled = true) (hu : rule.byUse = true)
    (ht : t ∈ (Catalogue.ofRecords rs).tests.values)
    (hn : t.fqn ∉ implementations rule.suffixes changed (.ofRecords rs))
    (hf : f ∈ implementations rule.suffixes changed (.ofRecords rs)) :
    t.fqn ∈ byImplementation rule changed (.ofRecords rs) ↔
      (usageTier? t f).isSome = true ∨ SelectedBeside rule changed (.ofRecords rs) f t := by
  have huse : t.fqn ∈ byUse (implementations rule.suffixes changed (.ofRecords rs))
      (.ofRecords rs) ↔
        ∃ y ∈ implementations rule.suffixes changed (.ofRecords rs),
          (usageTier? t y).isSome = true := by
    rw [mem_byUse]
    refine ⟨?_, fun ⟨y, hy, hused⟩ => ⟨t, ht, rfl, hn, y, hy, hused⟩⟩
    rintro ⟨t', ht', hfqn, -, y, hy, hused⟩
    have hsame := Catalogue.mem_tests_values.1 ht'
    rw [hfqn, Catalogue.mem_tests_values.1 ht] at hsame
    cases hsame
    exact ⟨y, hy, hused⟩
  rw [mem_byImplementation, huse, SelectedBeside]
  simp only [he, hu, true_and]
  refine ⟨?_, ?_⟩
  · rintro (hnamed | ⟨y, hy, hused⟩)
    · exact .inr (.inl hnamed)
    · by_cases hyf : y = f
      · exact .inl (hyf ▸ hused)
      · exact .inr (.inr ⟨y, hy, hyf, hused⟩)
  · rintro (hused | hnamed | ⟨y, hy, -, hused⟩)
    · exact .inr ⟨f, hf, hused⟩
    · exact .inl hnamed
    · exact .inr ⟨y, hy, hused⟩

/-- A test that sees the package of an implementation and mentions the implementation is selected if
that stands in the package on its own. If it stands inside another type, the test has to import it
or to see that other type as a package, or it is selected for something beside it. -/
theorem mem_byImplementation_of_declared (hrs : ∀ r ∈ rs, r.IsRead)
    (he : rule.enabled = true) (hu : rule.byUse = true)
    (hr : r ∈ (Catalogue.ofRecords rs).production.values) (hd : d ∈ r.declarations)
    (hi : Implements changed d) (ht : t ∈ (Catalogue.ofRecords rs).tests.values)
    (hs : t.Sees r.package) (hm : d.name ∈ t.typeRefs)
    (hn : t.fqn ∉ implementations rule.suffixes changed (.ofRecords rs)) :
    (d.qualified = d.name ∨ ∃ o ∈ r.declarations, d.IsInside o) ∧
      (d.qualified = d.name → t.fqn ∈ byImplementation rule changed (.ofRecords rs)) ∧
      ∀ o ∈ r.declarations, d.IsInside o →
        (t.fqn ∈ byImplementation rule changed (.ofRecords rs) ↔
          (r.declaredName d ∈ t.imports.values ∨ t.Sees (r.declaredName o)) ∨
            SelectedBeside rule changed (.ofRecords rs) (r.declaredName d) t) := by
  obtain ⟨text, path, fqn, kind, hread⟩ := isRead_of_mem_production hrs hr
  have hname := Java.isSegment_of_read hread d hd
  have hfound : r.declaredName d ∈ implementations rule.suffixes changed (.ofRecords rs) :=
    mem_implementations.2 ⟨r, hr, .inr ⟨d, hd, rfl, hi⟩⟩
  have hiff := mem_byImplementation_iff he hu ht hn hfound
  refine ⟨Java.isInside_of_read hread hd, fun htop => ?_, fun o _ hin => ?_⟩
  · obtain ⟨hp, hsimple⟩ := parts_of_topLevel (r := r) hname htop
    refine hiff.2 (.inl ((isSome_usageTier?_of_mem (hsimple ▸ hm)).2 (.inr ?_)))
    rwa [hp]
  · obtain ⟨hp, hsimple⟩ := parts_of_isInside (r := r) hname hin
    rw [hiff, isSome_usageTier?_of_mem (hsimple ▸ hm), hp]

end Selection

end

/-! ## A nested implementation -/

/-- An interface, a class with an implementation inside, and a test that mentions that. -/
def nestedSources : List (String × Java.SourceKind × String) :=
  [("com.x.Svc", .production, "package com.x; public interface Svc \x7b\x7d"),
    ("com.z.Holder", .production, "package com.z; public class Holder " ++
      "\x7b static class Inner implements Svc \x7b\x7d \x7d"),
    ("com.z.T", .test, "package com.z; class T \x7b Holder.Inner inner; \x7d")]

/-- The records of `nestedSources`. -/
def nestedRecords : List ClassRecord :=
  nestedSources.filterMap fun (fqn, kind, text) =>
    (ClassRecord.read text ⟨fqn⟩ fqn kind).toOption

/-- Selection by the use of implementations alone. -/
def useRule : Selection.ImplementationRule where
  enabled := true
  suffixes := ["Impl"]
  testSuffixes := none
  byUse := true

/-- The records of the example have been read. -/
theorem isRead_nestedRecords : ∀ r ∈ nestedRecords, r.IsRead := by
  intro r hr
  obtain ⟨⟨fqn, kind, text⟩, -, hr⟩ := List.mem_filterMap.1 hr
  exact ⟨text, ⟨fqn⟩, fqn, kind, Java.eq_ok_of_toOption hr⟩

namespace Selection

/-- The class around the implementation. -/
def holderDecl : TypeDecl := ⟨"Holder", "Holder", .classType, []⟩

/-- The implementation. -/
def innerDecl : TypeDecl := ⟨"Inner", "Holder.Inner", .classType, ["Svc"]⟩

/-- The nested class of the example implements the changed one. -/
theorem implements_innerDecl : Implements (.ofList ["com.x.Svc"]) innerDecl :=
  ⟨"Svc", List.mem_cons_self, "com.x.Svc", by decide, by decide +kernel⟩

/-- The test is in the package of the implementation and mentions it. -/
theorem exists_nestedRecords :
    ∃ r ∈ (Catalogue.ofRecords nestedRecords).production.values,
      ∃ t ∈ (Catalogue.ofRecords nestedRecords).tests.values,
        r.declarations = [holderDecl, innerDecl] ∧ t.Sees r.package ∧ "Inner" ∈ t.typeRefs ∧
          t.fqn = "com.z.T" := by
  have hr : ((Catalogue.ofRecords nestedRecords).production.find? "com.z.Holder").map
      (fun r => decide (r.declarations = [holderDecl, innerDecl] ∧ r.package = "com.z")) =
        some true := by
    decide +kernel
  have ht : ((Catalogue.ofRecords nestedRecords).tests.find? "com.z.T").map
      (fun t => decide (t.package = "com.z" ∧ "Inner" ∈ t.typeRefs ∧ t.fqn = "com.z.T")) =
        some true := by
    decide +kernel
  obtain ⟨r, hr, hrv⟩ := Option.map_eq_some_iff.1 hr
  obtain ⟨t, ht, htv⟩ := Option.map_eq_some_iff.1 ht
  obtain ⟨hdecls, hpackage⟩ := of_decide_eq_true hrv
  obtain ⟨hseen, hmention, hfqn⟩ := of_decide_eq_true htv
  exact ⟨r, NameMap.mem_values.2 ⟨_, hr⟩, t, NameMap.mem_values.2 ⟨_, ht⟩, hdecls,
    .inl (hseen.trans hpackage.symm), hmention, hfqn⟩

/-- The test of the example is no implementation itself. -/
theorem not_mem_implementations_nestedRecords :
    "com.z.T" ∉ implementations useRule.suffixes (.ofList ["com.x.Svc"])
      (.ofRecords nestedRecords) := by
  decide +kernel

/-- The test neither imports the implementation nor sees a package of the name of the class around
it. -/
theorem mem_byImplementation_of_declared_nestedRecords :
    ∃ r t, (∀ r ∈ nestedRecords, r.IsRead) ∧
      r ∈ (Catalogue.ofRecords nestedRecords).production.values ∧
      innerDecl ∈ r.declarations ∧ Implements (.ofList ["com.x.Svc"]) innerDecl ∧
      t ∈ (Catalogue.ofRecords nestedRecords).tests.values ∧ t.Sees r.package ∧
      innerDecl.name ∈ t.typeRefs ∧
      t.fqn ∉ implementations useRule.suffixes (.ofList ["com.x.Svc"]) (.ofRecords nestedRecords) ∧
      (t.fqn ∈ byImplementation useRule (.ofList ["com.x.Svc"]) (.ofRecords nestedRecords) ↔
        (r.declaredName innerDecl ∈ t.imports.values ∨ t.Sees (r.declaredName holderDecl)) ∨
          SelectedBeside useRule (.ofList ["com.x.Svc"]) (.ofRecords nestedRecords)
            (r.declaredName innerDecl) t) := by
  obtain ⟨r, hr, t, ht, hdecls, hs, hm, hfqn⟩ := exists_nestedRecords
  have hholder : holderDecl ∈ r.declarations := by simp [hdecls]
  have hinner : innerDecl ∈ r.declarations := by simp [hdecls]
  have hn : t.fqn ∉ implementations useRule.suffixes (.ofList ["com.x.Svc"])
      (.ofRecords nestedRecords) := hfqn ▸ not_mem_implementations_nestedRecords
  have henabled : useRule.enabled = true := rfl
  obtain ⟨-, -, hiff⟩ := mem_byImplementation_of_declared isRead_nestedRecords henabled rfl hr
    hinner implements_innerDecl ht hs hm hn
  exact ⟨r, t, isRead_nestedRecords, hr, hinner, implements_innerDecl, ht, hs, hm, hn,
    hiff holderDecl hholder (by decide)⟩

/-- Not every test in the package of an implementation that mentions it is selected. -/
theorem exists_nested_and_not_selected :
    ∃ r ∈ (Catalogue.ofRecords nestedRecords).production.values, ∃ d ∈ r.declarations,
      ∃ t ∈ (Catalogue.ofRecords nestedRecords).tests.values,
        Implements (.ofList ["com.x.Svc"]) d ∧ t.Sees r.package ∧ d.name ∈ t.typeRefs ∧
        t.fqn ∉ implementations useRule.suffixes (.ofList ["com.x.Svc"])
          (.ofRecords nestedRecords) ∧
        t.fqn ∉ byImplementation useRule (.ofList ["com.x.Svc"]) (.ofRecords nestedRecords) := by
  have hnot : "com.z.T" ∉ byImplementation useRule (.ofList ["com.x.Svc"])
      (.ofRecords nestedRecords) := by
    decide +kernel
  obtain ⟨r, hr, t, ht, hdecls, hs, hm, hfqn⟩ := exists_nestedRecords
  exact ⟨r, hr, innerDecl, by simp [hdecls], t, ht, implements_innerDecl, hs, hm,
    hfqn ▸ not_mem_implementations_nestedRecords, hfqn ▸ hnot⟩

end Selection

end TestImpact
