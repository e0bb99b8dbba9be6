import TestImpact.Proofs.Catalogue.Records
import TestImpact.Proofs.Java.TypeText
import TestImpact.Selection.Dependency

/-!
# The edges of the dependency graph

A production class depends on what its fields are declared with. Main statement: the edges of the
graph of a catalogue, for all texts of types and for all types that are written as type expressions
(`mem_dependentsOf_ofRecords`). The name of a field's type counts as it is written. A type argument
does so exactly if it stands without a bound and has a single segment of ASCII characters; below a
bound or with a qualified name it is read as another name (`exists_argument_without_edge`).
-/

namespace TestImpact

open Java (ClassRecord TypeExpr IsPlain typeArguments)

/-- The names that the graph takes from a field of this type. -/
def Java.TypeExpr.namesRead (t : TypeExpr) : List String :=
  t.name.text :: t.mentions.flatMap Java.namesRead

/-- The names that a field of this type is written with. -/
def Java.TypeExpr.namesWritten (t : TypeExpr) : List String :=
  t.name.text :: t.mentions.flatMap Java.namesWritten

namespace Selection

section
variable {c : Catalogue} {rs : List ClassRecord} {r : ClassRecord} {a b d u : String}

/-- Only the head of a raw type counts for what it stands for. -/
theorem resolve?_congr (h : Java.typeHead a = Java.typeHead b) :
    resolve? c a r = resolve? c b r := by
  rw [resolve?, resolve?, h]

/-- A type stands for what its name stands for. -/
theorem resolve?_raw (t : TypeExpr) : resolve? c t.raw r = resolve? c t.name.text r := by
  have ht : Java.typeHead t.name.text = t.name.text := by
    have hn := Java.typeHead_raw (.mk t.name [] 0)
    rwa [TypeExpr.raw, TypeExpr.tokens, Java.argumentTokens, Java.dimTokens, List.append_nil,
      List.append_nil] at hn
  exact resolve?_congr (by rw [Java.typeHead_raw, ht])

/-- A class holds those that its field types resolve to, but not itself. -/
theorem mem_heldBy :
    u ∈ heldBy c r ↔
      u ≠ r.fqn ∧
        ∃ raw ∈ r.fieldTypes, ∃ n ∈ raw :: typeArguments raw, resolve? c n r = some u := by
  simp only [heldBy, List.mem_filterMap, List.mem_flatMap, Option.filter_eq_some_iff,
    decide_eq_true_eq]
  refine ⟨?_, ?_⟩
  · rintro ⟨n, ⟨raw, hr, hn⟩, hu, hne⟩
    exact ⟨hne, raw, hr, n, hn, hu⟩
  · rintro ⟨hne, raw, hr, n, hn, hu⟩
    exact ⟨n, ⟨raw, hr, hn⟩, hu, hne⟩

/-- The graph leads from `u` to the class `d` if something that a field of `d` is declared with
stands for `u`. -/
theorem mem_dependentsOf_iff :
    d ∈ (DependencyGraph.ofCatalogue (.ofRecords rs)).dependentsOf u ↔
      ∃ r, (Catalogue.ofRecords rs).production.find? d = some r ∧ u ≠ d ∧
        ∃ raw ∈ r.fieldTypes, ∃ n ∈ raw :: typeArguments raw,
          resolve? (.ofRecords rs) n r = some u := by
  rw [DependencyGraph.mem_dependentsOf]
  refine ⟨?_, ?_⟩
  · rintro ⟨r, hr, rfl, hu⟩
    obtain ⟨k, hk⟩ := NameMap.mem_values.1 hr
    obtain rfl := Catalogue.fqn_of_find? .production hk
    exact ⟨r, hk, mem_heldBy.1 hu⟩
  · rintro ⟨r, hr, hu⟩
    obtain rfl := Catalogue.fqn_of_find? .production hr
    exact ⟨r, NameMap.mem_values.2 ⟨_, hr⟩, rfl, mem_heldBy.2 hu⟩

/-- The names that a raw type is looked up by are those that are read off the type. -/
theorem exists_resolve?_raw {t : TypeExpr} :
    (∃ n ∈ t.raw :: typeArguments t.raw, resolve? c n r = some u) ↔
      ∃ n ∈ t.namesRead, resolve? c n r = some u := by
  rw [TypeExpr.namesRead, Java.typeArguments_raw]
  simp only [List.mem_cons, exists_eq_or_imp, resolve?_raw]

/-- Where all arguments are plain, the graph takes the names that are written. -/
theorem namesRead_of_isPlain {t : TypeExpr} (h : ∀ m ∈ t.mentions, IsPlain m) :
    t.namesRead = t.namesWritten := by
  have hm : t.mentions.map Java.namesRead = t.mentions.map Java.namesWritten :=
    List.map_congr_left fun m hm => (Java.namesRead_eq_iff m).2 (h m hm)
  rw [TypeExpr.namesRead, TypeExpr.namesWritten, List.flatMap_def, List.flatMap_def, hm]

/-- The edges of the graph of a catalogue. There is an edge from `u` to `d` exactly if `d` is the
class of a production record, `u` is another class, and a text that a field of the record is
declared with mentions what stands for `u`. Of a field whose type is a type expression the graph
takes the name of the type and what is read of each argument; this is what is written if every
argument is plain, and an argument that is not plain is read as something else. -/
theorem mem_dependentsOf_ofRecords :
    (d ∈ (DependencyGraph.ofCatalogue (.ofRecords rs)).dependentsOf u ↔
      ∃ r, (Catalogue.ofRecords rs).production.find? d = some r ∧ u ≠ d ∧
        ∃ raw ∈ r.fieldTypes, ∃ n ∈ raw :: typeArguments raw,
          resolve? (.ofRecords rs) n r = some u) ∧
    (∀ (r : ClassRecord) (types : List TypeExpr),
      (Catalogue.ofRecords rs).production.find? d = some r → r.fieldTypes = types.map TypeExpr.raw →
        (d ∈ (DependencyGraph.ofCatalogue (.ofRecords rs)).dependentsOf u ↔
          u ≠ d ∧ ∃ t ∈ types, ∃ n ∈ t.namesRead, resolve? (.ofRecords rs) n r = some u) ∧
        ((∀ t ∈ types, ∀ m ∈ t.mentions, IsPlain m) →
          (d ∈ (DependencyGraph.ofCatalogue (.ofRecords rs)).dependentsOf u ↔
            u ≠ d ∧ ∃ t ∈ types, ∃ n ∈ t.namesWritten, resolve? (.ofRecords rs) n r = some u))) ∧
    ∀ m, Java.namesRead m = Java.namesWritten m ↔ IsPlain m := by
  refine ⟨mem_dependentsOf_iff, fun r types hr ht => ?_, Java.namesRead_eq_iff⟩
  have hread : d ∈ (DependencyGraph.ofCatalogue (.ofRecords rs)).dependentsOf u ↔
      u ≠ d ∧ ∃ t ∈ types, ∃ n ∈ t.namesRead, resolve? (.ofRecords rs) n r = some u := by
    rw [mem_dependentsOf_iff]
    simp only [hr, Option.some.injEq, exists_eq_left', ht]
    refine and_congr_right fun _ => ⟨?_, ?_⟩
    · rintro ⟨raw, hraw, h⟩
      obtain ⟨t, htm, rfl⟩ := List.mem_map.1 hraw
      exact ⟨t, htm, exists_resolve?_raw.1 h⟩
    · rintro ⟨t, htm, h⟩
      exact ⟨t.raw, List.mem_map_of_mem htm, exists_resolve?_raw.2 h⟩
  refine ⟨hread, fun hp => ?_⟩
  rw [hread]
  refine and_congr_right fun _ => exists_congr fun t => and_congr_right fun htm => ?_
  rw [namesRead_of_isPlain (hp t htm)]

end

/-- Two classes, a class that holds them below a bound and by a qualified name, and a class that
holds one of them in a plain argument. -/
def heldRecords : List ClassRecord :=
  [("p.A", "package p; class A \x7b \x7d"), ("q.B", "package q; class B \x7b \x7d"),
    ("p.D", "package p; class D \x7b List<? extends A> as; Map<String, q.B> bs; \x7d"),
    ("p.E", "package p; class E \x7b Map<String, A[]> as; \x7d")].filterMap fun s =>
      (ClassRecord.read s.2 ⟨s.1⟩ s.1 .production).toOption

/-- The types of the fields of `p.D`. -/
def boundedTypes : List TypeExpr :=
  [.named { text := "List" } [.type .upper (.named { text := "A" })],
    .named { text := "Map" } [.type .exact (.named { text := "String" }),
      .type .exact (.mk (.dotted { first := { text := "q" }, rest := [{ text := "B" }] }) [] 0)]]

/-- The types of the fields of `p.E`. -/
def plainTypes : List TypeExpr :=
  [.named { text := "Map" } [.type .exact (.named { text := "String" }),
    .type .exact (.named { text := "A" } [] 1)]]

/-- The plain argument of the field of `p.E` gives an edge. -/
theorem mem_dependentsOf_heldRecords :
    ∃ r, (Catalogue.ofRecords heldRecords).production.find? "p.E" = some r ∧
      r.fieldTypes = plainTypes.map TypeExpr.raw ∧
      (∀ t ∈ plainTypes, ∀ m ∈ t.mentions, IsPlain m) ∧
      "p.E" ∈ (DependencyGraph.ofCatalogue (.ofRecords heldRecords)).dependentsOf "p.A" := by
  have hv : ((Catalogue.ofRecords heldRecords).production.find? "p.E").map (fun r =>
      r.fieldTypes = plainTypes.map TypeExpr.raw &&
        resolve? (.ofRecords heldRecords) "A" r = some "p.A") = some true := by
    decide +kernel
  obtain ⟨r, hr, hv⟩ := Option.map_eq_some_iff.1 hv
  rw [Bool.and_eq_true, decide_eq_true_eq, decide_eq_true_eq] at hv
  have hn : ∀ t ∈ plainTypes, ∀ m ∈ t.mentions, Java.namesRead m = Java.namesWritten m := by
    decide +kernel
  have hp : ∀ t ∈ plainTypes, ∀ m ∈ t.mentions, IsPlain m := fun t ht m hm =>
    (Java.namesRead_eq_iff m).1 (hn t ht m hm)
  refine ⟨r, hr, hv.1, hp, ?_⟩
  refine ((mem_dependentsOf_ofRecords.2.1 r plainTypes hr hv.1).2 hp).2 ⟨by decide, ?_⟩
  exact ⟨_, List.mem_cons_self, "A", by decide +kernel, hv.2⟩

/-- A class below a bound and a class with a qualified name are held, but no edge leads from
them. -/
theorem exists_argument_without_edge :
    ∃ r, (Catalogue.ofRecords heldRecords).production.find? "p.D" = some r ∧
      r.fieldTypes = boundedTypes.map TypeExpr.raw ∧
      ∀ u ∈ ["p.A", "q.B"],
        (∃ t ∈ boundedTypes, ∃ n ∈ t.namesWritten,
          resolve? (.ofRecords heldRecords) n r = some u) ∧
        "p.D" ∉ (DependencyGraph.ofCatalogue (.ofRecords heldRecords)).dependentsOf u := by
  have hv : ((Catalogue.ofRecords heldRecords).production.find? "p.D").map (fun r =>
      r.fieldTypes = boundedTypes.map TypeExpr.raw &&
        ["p.A", "q.B"].all fun u => boundedTypes.any fun t => t.namesWritten.any fun n =>
          resolve? (.ofRecords heldRecords) n r = some u) = some true := by
    decide +kernel
  obtain ⟨r, hr, hv⟩ := Option.map_eq_some_iff.1 hv
  rw [Bool.and_eq_true, decide_eq_true_eq] at hv
  refine ⟨r, hr, hv.1, fun u hu => ⟨?_, ?_⟩⟩
  · simpa using List.all_eq_true.1 hv.2 u hu
  · revert u
    decide +kernel

end Selection

end TestImpact
