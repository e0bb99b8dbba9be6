import TestImpact.Java.Source
import TestImpact.Proofs.Java.Header
import TestImpact.Proofs.Java.TokenText
import TestImpact.Proofs.Text.Pieces
import TestImpact.Selection.Usage

/-!
# The imports of a source

`Import.Names` says which class an import statement names. The record of a source lists the imported
classes by their simple names, so of the statements that name classes of one simple name only the
last counts (`LastNamed`). Main statement: the record imports exactly these classes, a test has the
tier of a direct import exactly for these, and every import on demand is kept
(`read_importsClass_iff`). A class that an earlier statement names is lost
(`exists_named_and_not_imported`).
-/

namespace TestImpact.Java

open Selection (usageTier?)

/-- The class that an import statement names. A static import names the class that owns the members;
the owner of a single member has a name. -/
def Import.Names (i : Import) (fqn : String) : Prop :=
  if i.isStatic then
    ∃ member : String, '.' ∉ member.toList ∧ i.name = fqn ++ "." ++ member ∧
      (fqn ≠ "" ∨ member = "*")
  else i.name = fqn ∧ ∀ package, i.name ≠ package ++ ".*"

/-- Some import statement names the class, and no statement behind it a class of the same simple
name. -/
def LastNamed (imports : List Import) (fqn : String) : Prop :=
  ∃ before i after, imports = before ++ i :: after ∧ i.Names fqn ∧
    ∀ j ∈ after, ∀ other, j.Names other → simpleName other ≠ simpleName fqn

section
variable {i : Import} {imports : List Import} {fqn k package text : String} {path : Path}
  {kind : SourceKind} {r : ClassRecord}

/-- An import on demand is told by the star at its end. -/
theorem onDemand?_eq_some : i.onDemand? = some package ↔ i.name = package ++ ".*" :=
  dropEnd?_eq_some

/-- A static import on demand names the class in front of the star. -/
theorem names_static_onDemand {owner : String} :
    (⟨owner ++ ".*", true⟩ : Import).Names fqn ↔ owner = fqn := by
  simp only [Import.Names, if_true]
  refine ⟨?_, ?_⟩
  · rintro ⟨member, hm, hf, -⟩
    have ho : beforeLast '.' (owner ++ ".*").toList = owner.toList := by
      rw [String.toList_append]
      exact beforeLast_append_cons (by decide)
    rw [hf] at ho
    simp only [String.toList_append, List.append_assoc] at ho
    exact String.toList_inj.1 (ho.symm.trans (beforeLast_append_cons hm))
  · rintro rfl
    exact ⟨"*", by decide, by rw [String.append_assoc]; rfl, .inr rfl⟩

/-- A static import of a single member names the class in front of the member. -/
theorem names_static_single {name : String} (hn : ∀ package, name ≠ package ++ ".*") :
    (⟨name, true⟩ : Import).Names fqn ↔ fqn ≠ "" ∧ packageOf name = fqn := by
  simp only [Import.Names, if_true]
  refine ⟨?_, ?_⟩
  · rintro ⟨member, hm, he, h⟩
    have hf : fqn ≠ "" := by
      rintro rfl
      obtain rfl : member = "*" := h.resolve_left (· rfl)
      exact hn "" he
    exact ⟨hf, (packageOf_eq hf).2 ⟨member, hm, he⟩⟩
  · rintro ⟨hf, hp⟩
    obtain ⟨member, hm, he⟩ := (packageOf_eq hf).1 hp
    exact ⟨member, hm, he, .inl hf⟩

/-- The class of an import statement is the one that it names. -/
theorem class?_eq_some : i.class? = some fqn ↔ i.Names fqn := by
  obtain ⟨name, isStatic⟩ := i
  cases hd : Import.onDemand? ⟨name, isStatic⟩ with
  | some owner =>
    obtain rfl : name = owner ++ ".*" := onDemand?_eq_some.1 hd
    cases isStatic with
    | false => simp [Import.class?, hd, Import.Names]
    | true => rw [names_static_onDemand]; simp [Import.class?, hd]
  | none =>
    have hn : ∀ package, name ≠ package ++ ".*" := by
      intro package he
      rw [onDemand?_eq_some.2 he] at hd
      cases hd
    cases isStatic with
    | false => simp [Import.class?, hd, Import.Names, hn]
    | true =>
      rw [names_static_single hn]
      by_cases ho : packageOf name = ""
      · simp only [Import.class?, hd, ho, String.isEmpty_iff, if_true]
        exact ⟨nofun, fun h => absurd h.2.symm h.1⟩
      · simp only [Import.class?, hd, String.isEmpty_iff, ho, if_false, Option.some.injEq]
        exact ⟨fun h => ⟨h ▸ ho, h⟩, And.right⟩

/-- What a simple name leads to among the imported classes. -/
theorem find?_importTable :
    (importTable imports).find? k = some fqn ↔
      ∃ before i after, imports = before ++ i :: after ∧ i.Names fqn ∧ simpleName fqn = k ∧
        ∀ j ∈ after, ∀ other, j.Names other → simpleName other ≠ k := by
  rw [importTable, List.map_filterMap, NameMap.find?_ofList]
  refine ⟨?_, ?_⟩
  · rintro ⟨before, after, he, hn⟩
    obtain ⟨before', rest, rfl, -, hr⟩ := List.filterMap_eq_append_iff.1 he
    obtain ⟨skipped, i, after', rfl, -, hi, rfl⟩ := List.filterMap_eq_cons_iff.1 hr
    obtain ⟨c, hc, hp⟩ := Option.map_eq_some_iff.1 hi
    cases hp
    refine ⟨before' ++ skipped, i, after', by simp, class?_eq_some.1 hc, rfl, ?_⟩
    intro j hj other ho
    refine hn (simpleName other, other) (List.mem_filterMap.2 ⟨j, hj, ?_⟩)
    rw [class?_eq_some.2 ho]
    rfl
  · rintro ⟨before, i, after, rfl, hi, rfl, hn⟩
    rw [List.filterMap_append, List.filterMap_cons, class?_eq_some.2 hi]
    refine ⟨_, _, rfl, fun e he => ?_⟩
    obtain ⟨j, hj, hp⟩ := List.mem_filterMap.1 he
    obtain ⟨c, hc, rfl⟩ := Option.map_eq_some_iff.1 hp
    exact hn j hj c (class?_eq_some.1 hc)

/-- The table holds the classes that are the last of their simple name. -/
theorem mem_values_importTable : fqn ∈ (importTable imports).values ↔ LastNamed imports fqn := by
  rw [NameMap.mem_values]
  refine ⟨?_, ?_⟩
  · rintro ⟨k, h⟩
    obtain ⟨before, i, after, he, hi, rfl, hn⟩ := find?_importTable.1 h
    exact ⟨before, i, after, he, hi, hn⟩
  · rintro ⟨before, i, after, he, hi, hn⟩
    exact ⟨simpleName fqn, find?_importTable.2 ⟨before, i, after, he, hi, rfl, hn⟩⟩

/-- A test has the tier of a direct import exactly for the classes that its source imports by
name. -/
theorem usageTier?_eq_directImport :
    usageTier? r fqn = some .directImport ↔ r.importsClass fqn = true := by
  rw [usageTier?]
  split
  · next h => simp [h]
  · next h =>
    refine ⟨fun hs => ?_, fun hi => absurd hi h⟩
    split at hs
    · cases hs
    · split at hs <;> cases hs

/-- What the record of a source takes from the header. -/
theorem header_of_read (hr : ClassRecord.read text path fqn kind = .ok r) :
    ∃ ts imports body, tokens text.toList = .ok ts ∧ Opens ts imports body ∧
      r.imports = importTable imports ∧
      r.wildcardImports = .ofList (imports.filterMap Import.onDemand?) := by
  rw [ClassRecord.read] at hr
  split at hr
  · cases hr
  · next hp =>
    cases hr
    obtain ⟨ts, ht, hp⟩ := eq_ok_of_bind hp
    obtain ⟨⟨h, body⟩, hh, hp⟩ := eq_ok_of_bind hp
    obtain ⟨ms, hm, hp⟩ := eq_ok_of_bind hp
    cases hp
    exact ⟨ts, _, _, ht, exists_header_iff.1 ⟨_, hh, rfl⟩, rfl, rfl⟩

/-- What a readable source imports. Its tokens open with one sequence of import statements. The
source imports by name exactly the classes that a statement names and no later statement replaces by
another class of the same simple name; these are the classes that it uses by a direct import; and
whatever a statement takes on demand is kept. -/
theorem read_importsClass_iff (hr : ClassRecord.read text path fqn kind = .ok r) :
    ∃ ts imports body, tokens text.toList = .ok ts ∧
      (∀ imports' body', Opens ts imports' body' ↔ imports' = imports ∧ body' = body) ∧
      (∀ c, r.importsClass c = true ↔ LastNamed imports c) ∧
      (∀ c, usageTier? r c = some .directImport ↔ LastNamed imports c) ∧
      ∀ p, p ∈ r.wildcardImports ↔ ∃ i ∈ imports, i.name = p ++ ".*" := by
  obtain ⟨ts, imports, body, ht, ho, hi, hw⟩ := header_of_read hr
  have hc : ∀ c, r.importsClass c = true ↔ LastNamed imports c := by
    intro c
    rw [ClassRecord.importsClass, List.contains_iff_mem, hi, mem_values_importTable]
  refine ⟨ts, imports, body, ht, fun imports' body' => ⟨ho.unique, ?_⟩, hc, fun c => ?_,
    fun p => ?_⟩
  · rintro ⟨rfl, rfl⟩
    exact ho
  · rw [usageTier?_eq_directImport, hc]
  · simp only [hw, NameSet.mem_ofList, List.mem_filterMap, onDemand?_eq_some]

end

/-- The test imports a class by its name and a member of another class of that simple name. -/
def twoFoos : String :=
  "package p; import a.Foo; import static b.Foo.make; class T \x7b Foo foo; \x7d"

/-- The record of `twoFoos`, of which the imports are known. -/
theorem exists_read_twoFoos :
    ∃ r, ClassRecord.read twoFoos ⟨"T.java"⟩ "p.T" .test = .ok r ∧
      r.importsClass "a.Foo" = false ∧ r.importsClass "b.Foo" = true := by
  have hv : (ClassRecord.read twoFoos ⟨"T.java"⟩ "p.T" .test).toOption.map
      (fun r => (r.importsClass "a.Foo", r.importsClass "b.Foo")) = some (false, true) := by
    decide +kernel
  cases hr : ClassRecord.read twoFoos ⟨"T.java"⟩ "p.T" .test with
  | error e => rw [hr] at hv; cases hv
  | ok r =>
    rw [hr] at hv
    exact ⟨r, rfl, congrArg Prod.fst (Option.some.inj hv), congrArg Prod.snd (Option.some.inj hv)⟩

/-- The tokens of `twoFoos` open with its two import statements. -/
theorem exists_opens_twoFoos :
    ∃ ts body, tokens twoFoos.toList = .ok ts ∧
      Opens ts [⟨"a.Foo", false⟩, ⟨"b.Foo.make", true⟩] body := by
  have hv : (readParts twoFoos).toOption.map (·.1) =
      some ⟨"p", [⟨"a.Foo", false⟩, ⟨"b.Foo.make", true⟩]⟩ := by
    decide +kernel
  cases hp : readParts twoFoos with
  | error e => rw [hp] at hv; cases hv
  | ok parts =>
    obtain ⟨ts, ht, hp'⟩ := eq_ok_of_bind hp
    obtain ⟨⟨h, body⟩, hh, hp'⟩ := eq_ok_of_bind hp'
    obtain ⟨ms, -, hp'⟩ := eq_ok_of_bind hp'
    cases hp'
    rw [hp] at hv
    refine ⟨ts, body, ht, exists_header_iff.1 ⟨h, hh, ?_⟩⟩
    exact congrArg Header.imports (Option.some.inj hv)

/-- In `twoFoos` the class of the first statement is replaced by that of the second. -/
theorem read_importsClass_iff_twoFoos :
    ∃ r, ClassRecord.read twoFoos ⟨"T.java"⟩ "p.T" .test = .ok r ∧
      ∃ ts imports body, tokens twoFoos.toList = .ok ts ∧
        (∀ imports' body', Opens ts imports' body' ↔ imports' = imports ∧ body' = body) ∧
        (∀ c, r.importsClass c = true ↔ LastNamed imports c) ∧
        (∀ c, usageTier? r c = some .directImport ↔ LastNamed imports c) ∧
        ∀ p, p ∈ r.wildcardImports ↔ ∃ i ∈ imports, i.name = p ++ ".*" := by
  obtain ⟨r, hr, -⟩ := exists_read_twoFoos
  exact ⟨r, hr, read_importsClass_iff hr⟩

/-- Not every class that an import statement names is imported: in `twoFoos` the class of the first
statement is lost. -/
theorem exists_named_and_not_imported :
    ∃ r ts imports body, ClassRecord.read twoFoos ⟨"T.java"⟩ "p.T" .test = .ok r ∧
      tokens twoFoos.toList = .ok ts ∧ Opens ts imports body ∧
      ∃ i ∈ imports, i.Names "a.Foo" ∧ r.importsClass "a.Foo" = false ∧
        usageTier? r "a.Foo" ≠ some .directImport := by
  obtain ⟨r, hr, ha, -⟩ := exists_read_twoFoos
  obtain ⟨ts, body, ht, ho⟩ := exists_opens_twoFoos
  refine ⟨r, ts, _, body, hr, ht, ho, ⟨"a.Foo", false⟩, by simp, class?_eq_some.1 (by decide), ha,
    ?_⟩
  rw [Ne, usageTier?_eq_directImport, ha]
  decide

end TestImpact.Java
