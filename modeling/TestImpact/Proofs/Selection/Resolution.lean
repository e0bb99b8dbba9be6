import Mathlib.Data.List.TakeWhile
import TestImpact.Proofs.Selection.Dependency
import TestImpact.Proofs.Selection.Membership

/-!
# Resolved names and used classes

A name is resolved from a source outwards, through its imports, its own package and the packages
that it imports on demand. Whether a source uses a class is told the other way round: from the
qualified name back to its package and simple name. Main statement: what a name in type position is
resolved to is used by its source, and so a changed class selects the test
(`isSome_usageTier?_of_resolve?`).
-/

namespace TestImpact

open Java (ClassRecord typeHead)

/-- The text is one name: no character of it separates segments, opens type arguments, closes array
brackets or is blank. -/
def IsPlainName (n : String) : Prop :=
  ∀ c ∈ n.toList, c ≠ '.' ∧ c ≠ '<' ∧ c ≠ ']' ∧ isBlank c = false

/-- Every identifier is one name. -/
theorem Java.Identifier.isPlainName (i : Java.Identifier) : IsPlainName i.text := by
  intro c hc
  obtain ⟨hw, hb⟩ := Java.Identifier.isWordPart hc
  refine ⟨?_, ?_, ?_, hb⟩ <;>
  · rintro rfl
    exact absurd hw (by decide)

section
variable {n package f : String} {c : Catalogue} {r : ClassRecord} {changed : NameSet}

/-! ## One name inside a package -/

/-- A plain name has no dot in it. -/
theorem IsPlainName.dot_not_mem (hn : IsPlainName n) : '.' ∉ n.toList := fun hm => (hn _ hm).1 rfl

/-- A name is the head of itself. -/
theorem IsPlainName.typeHead_eq (hn : IsPlainName n) : typeHead n = n := by
  have hfront : n.toList.takeWhile (· ≠ '<') = n.toList :=
    List.takeWhile_eq_self_iff.2 fun c hc => by simpa using (hn c hc).2.1
  have hne : ∀ {c d : Char}, n.toList.reverse.head? = some d → (∀ e ∈ n.toList, e ≠ c) → d ≠ c :=
    fun hd hc => hc _ (List.mem_reverse.1 (List.mem_of_head? hd))
  have hdots : n.toList.reverse.head? ≠ some '.' := fun hd => hne hd (fun e he => (hn e he).1) rfl
  have hbrackets : n.toList.reverse.head? ≠ some ']' :=
    fun hd => hne hd (fun e he => (hn e he).2.2.1) rfl
  rw [typeHead, hfront, Java.dropEllipses_of_head hdots, Java.dropBrackets_of_head hbrackets,
    List.reverse_reverse, Java.trimBlanks_of_forall fun c hc => (hn c hc).2.2.2,
    String.ofList_toList]

/-- The package of a name in a package is that package. -/
theorem packageOf_append (hn : '.' ∉ n.toList) : packageOf (package ++ "." ++ n) = package := by
  rw [packageOf, ← String.toList_inj, String.toList_ofList, String.toList_append,
    String.toList_append, List.append_assoc]
  exact beforeLast_append_cons hn

/-- The simple name of a name in a package is that name. -/
theorem simpleName_append (hn : '.' ∉ n.toList) : simpleName (package ++ "." ++ n) = n := by
  rw [simpleName, ← String.toList_inj, String.toList_ofList, String.toList_append,
    String.toList_append, List.append_assoc]
  exact afterLast_append_cons hn

/-- A name without dots is its own simple name. -/
theorem simpleName_of_not_mem (hn : '.' ∉ n.toList) : simpleName n = n := by
  have hall : n.toList.reverse.takeWhile (· ≠ '.') = n.toList.reverse :=
    List.takeWhile_eq_self_iff.2 (forall_mem_reverse_ne hn)
  rw [simpleName, afterLast, hall, List.reverse_reverse, String.ofList_toList]

/-- A qualified name has the package that it is qualified with. -/
theorem packageOf_qualify (hn : '.' ∉ n.toList) : packageOf (qualify package n) = package := by
  rw [qualify]
  split
  · next he =>
    rw [String.isEmpty_iff.1 he, packageOf, beforeLast_of_not_mem hn, String.ofList_nil]
  · exact packageOf_append hn

/-- A qualified name has the simple name that is qualified. -/
theorem simpleName_qualify (hn : '.' ∉ n.toList) : simpleName (qualify package n) = n := by
  rw [qualify]
  split
  · exact simpleName_of_not_mem hn
  · exact simpleName_append hn

namespace Selection

/-! ## From the name to the class and back -/

/-- What a name is known as is the name itself. -/
theorem eq_of_known? {g : String} (h : known? c g = some f) : g = f := by
  rw [known?] at h
  split at h
  · exact Option.some.inj h
  · cases h

/-- A name is resolved through an import, or it names a class of a package that the source sees. -/
theorem resolve?_cases (hn : IsPlainName n) (h : resolve? c n r = some f) :
    f ∈ r.imports.values ∨
      (packageOf f = r.package ∨ packageOf f ∈ r.wildcardImports) ∧ simpleName f = n := by
  have hd := hn.dot_not_mem
  rw [resolve?, hn.typeHead_eq, if_neg hd] at h
  split at h
  · cases h
  split at h
  · next imported hi =>
    rw [← eq_of_known? h]
    exact .inl (NameMap.mem_values.2 ⟨n, hi⟩)
  refine .inr ?_
  rcases Option.or_eq_some_iff.1 h with h | ⟨-, h⟩
  · rw [← eq_of_known? h]
    exact ⟨.inl (packageOf_qualify hd), simpleName_qualify hd⟩
  · obtain ⟨package, hp, h⟩ := List.exists_of_findSome?_eq_some h
    rw [← eq_of_known? h]
    exact ⟨.inr ((packageOf_append hd).symm ▸ hp), simpleName_append hd⟩

/-- A source uses the classes that it imports by name, and those that it refers to in a package that
it sees. -/
theorem isSome_usageTier?_iff :
    (usageTier? r f).isSome = true ↔
      f ∈ r.imports.values ∨
        (packageOf f = r.package ∨ packageOf f ∈ r.wildcardImports) ∧
          simpleName f ∈ r.typeRefs := by
  have hi : r.importsClass f = true ↔ f ∈ r.imports.values := List.contains_iff_mem
  have ht : r.refersTo (simpleName f) = true ↔ simpleName f ∈ r.typeRefs := decide_eq_true_iff
  simp only [usageTier?, hi, ht]
  by_cases himport : f ∈ r.imports.values
  · simp [himport]
  by_cases href : simpleName f ∈ r.typeRefs
  · by_cases hw : packageOf f ∈ r.wildcardImports
    · simp [himport, href, hw]
    · by_cases hp : r.package = packageOf f
      · simp [himport, href, hw, hp]
      · simp [himport, href, hw, hp, Ne.symm hp]
  · simp [himport, href]

/-- What a name in type position stands for is used by the source, however the name is resolved. So
a test is selected for a changed class that it mentions, unless the test is changed itself. -/
theorem isSome_usageTier?_of_resolve? (hn : IsPlainName n) (hr : n ∈ r.typeRefs)
    (h : resolve? c n r = some f) :
    (usageTier? r f).isSome = true ∧
      ∀ changed, f ∈ changed → r ∈ c.tests.values → r.fqn ∉ changed →
        r.fqn ∈ byUse changed c := by
  have hu : (usageTier? r f).isSome = true := by
    refine isSome_usageTier?_iff.2 ((resolve?_cases hn h).imp_right fun hs => ⟨hs.1, ?_⟩)
    rw [hs.2]
    exact hr
  exact ⟨hu, fun changed hf ht hnot => mem_byUse.2 ⟨r, ht, rfl, hnot, f, hf, hu⟩⟩

end Selection

end

/-- A class, and a test that mentions it behind two packages that are imported on demand. -/
def seenRecords : List ClassRecord :=
  [("com.x.Foo", .production, "package com.x; class Foo \x7b \x7d"),
    ("it.a.T", .test, "package it.a; import b.c.*; import com.x.*; " ++
      "class T \x7b void t() \x7b new Foo(); \x7d \x7d")].filterMap
    fun (fqn, kind, text) => (ClassRecord.read text ⟨fqn⟩ fqn kind).toOption

/-- The test is selected for the class. -/
theorem Selection.isSome_usageTier?_of_resolve?_seenRecords :
    ∃ r, (Catalogue.ofRecords seenRecords).tests.find? "it.a.T" = some r ∧ IsPlainName "Foo" ∧
      "Foo" ∈ r.typeRefs ∧ resolve? (.ofRecords seenRecords) "Foo" r = some "com.x.Foo" ∧
      (usageTier? r "com.x.Foo").isSome = true ∧
      r.fqn ∈ byUse (.ofList ["com.x.Foo"]) (.ofRecords seenRecords) := by
  have hv : ((Catalogue.ofRecords seenRecords).tests.find? "it.a.T").map (fun r =>
      decide ("Foo" ∈ r.typeRefs) &&
        resolve? (.ofRecords seenRecords) "Foo" r = some "com.x.Foo" && r.fqn = "it.a.T") =
        some true := by
    decide +kernel
  obtain ⟨r, ht, hv⟩ := Option.map_eq_some_iff.1 hv
  simp only [Bool.and_eq_true, decide_eq_true_eq] at hv
  obtain ⟨⟨href, hresolve⟩, hfqn⟩ := hv
  have hn : IsPlainName "Foo" := Java.Identifier.isPlainName ⟨"Foo", by decide +kernel⟩
  obtain ⟨hu, hselected⟩ := isSome_usageTier?_of_resolve? hn href hresolve
  refine ⟨r, ht, hn, href, hresolve, hu, hselected _ ?_ (NameMap.mem_values.2 ⟨_, ht⟩) ?_⟩
  · decide
  · rw [hfqn]
    decide

end TestImpact
