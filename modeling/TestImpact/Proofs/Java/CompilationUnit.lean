import TestImpact.Proofs.Java.Parameters
import TestImpact.Proofs.Java.Printing
import TestImpact.Proofs.Java.Supertypes
import TestImpact.Proofs.Java.UnitHeader

/-!
# Units read back

`CompilationUnit.ReadAs` says what the record of a source has of the unit that is written there.
Main statement: every unit is read, from its own text and from any other text with the same tokens,
and its record has all of it but for two defects, of which the exact conditions are given
(`read_compilationUnit`). A list of supertypes is cut at an upper bound, wherever it stands, so that
not all supertypes are read as they are written (`exists_supertypes_not_read`). A list of parameters
is cut at its commas outside of all brackets, and annotations may have angle brackets that are none.
-/

namespace TestImpact.Java

/-- The declared type without its supertypes. -/
def TypeDecl.outline (d : TypeDecl) : String × String × DeclKind := (d.name, d.qualified, d.kind)

/-- What the record of a source has of the unit that is written there. -/
structure CompilationUnit.ReadAs (u : CompilationUnit) (r : ClassRecord) : Prop where
  package : r.package = u.packageName
  /-- Every class that is imported by its name is found by its simple name, and no other one. -/
  imports (name c : String) :
    r.imports.find? name = some c ↔ ∃ i ∈ u.imports, i.class? = some c ∧ simpleName c = name
  /-- Everything that is imported on demand is kept. -/
  wildcardImports (p : String) : p ∈ r.wildcardImports ↔ ∃ i ∈ u.imports, i.onDemand? = some p
  /-- The declared types with their names and kinds, each before those inside it. -/
  outline : r.declarations.map TypeDecl.outline = u.declarations.map TypeDecl.outline
  /-- They have the supertypes that are written, exactly if none of these has an upper bound. -/
  declarations : r.declarations = u.declarations ↔
    ∀ h ∈ u.heads, ∀ clause ∈ h.2.clauses, ∀ t ∈ clause.types, t.NoUpper
  returnTypes : r.returnTypes = u.members.flatMap Member.returnTypes
  /-- The types of fields, exactly if the components of each record can be told apart. -/
  fieldTypes : r.fieldTypes = u.members.flatMap Member.fieldTypes ↔
    ∀ d ∈ u.declared, Separable 0 (d.components.map Parameter.tokens)
  /-- The types of parameters, exactly if those of each list can be told apart. -/
  parameterTypes : r.parameterTypes = u.members.flatMap Member.parameterTypes ↔
    ∀ d ∈ u.declared, Separable 0 (d.parameters.map Parameter.tokens)

section
variable {u : CompilationUnit} {ds : List Declared} {s s' : TypeHead → List String}
  {q q' : List Parameter → List String}

/-! ## The members -/

/-- The walk through the types of a source finds what they declare. -/
theorem walk_types (types : List TypeSyntax) :
    walk [] 0 false [] (types.flatMap TypeSyntax.tokens) =
      .ok (found (types.flatMap (TypeSyntax.declared ""))) := by
  induction types with
  | nil =>
    rw [List.flatMap_nil, walk_nil]
    rfl
  | cons t types ih =>
    rw [List.flatMap_cons, walk_typeTokens t, ih, List.flatMap_cons, found, found, found,
      List.map_append]
    rfl

/-- The declarations among members. -/
theorem filterMap_decl? :
    (ds.map (Declared.member s q)).filterMap Member.decl? =
      (ds.filterMap Declared.head?).map fun h => h.2.declaration h.1 (s h.2) := by
  rw [List.filterMap_map, List.map_filterMap]
  refine congrArg (List.filterMap · ds) (funext fun d => ?_)
  cases d <;> rfl

/-- What is taken from each member, if it does not depend on what is known of headers and of
parameter lists. -/
theorem flatMap_members {f : Member → List String}
    (h : ∀ d ∈ ds, f (d.member s q) = f (d.member s' q')) :
    (ds.map (Declared.member s q)).flatMap f = (ds.map (Declared.member s' q')).flatMap f := by
  rw [List.flatMap_map, List.flatMap_map, List.flatMap_def, List.flatMap_def]
  exact congrArg _ (List.map_congr_left h)

/-- The declared types are those that are written exactly if all supertypes are. -/
theorem declarations_found :
    (found u.declared).filterMap Member.decl? = u.declarations ↔
      ∀ h ∈ u.heads, ∀ clause ∈ h.2.clauses, ∀ t ∈ clause.types, t.NoUpper := by
  rw [found, filterMap_decl?, CompilationUnit.declarations, CompilationUnit.heads,
    List.map_inj_left]
  refine forall_congr' fun h => forall_congr' fun _ => ?_
  rw [← readSupertypes_eq_iff]
  refine ⟨fun he => congrArg TypeDecl.supertypes he, fun he => ?_⟩
  rw [he]

/-- The declared types have their names and kinds in any case. -/
theorem outline_found :
    ((found u.declared).filterMap Member.decl?).map TypeDecl.outline =
      u.declarations.map TypeDecl.outline := by
  rw [found, filterMap_decl?, CompilationUnit.declarations, CompilationUnit.heads, List.map_map,
    List.map_map]
  rfl

/-- Types that are taken from parameter lists are those that are written exactly if the lists can be
told apart. -/
theorem parameters_found {f : Member → List String} {g : Declared → List Parameter}
    (hread : ∀ d : Declared, ∀ s ∈ readParameters (g d),
      s ∈ f (d.member readSupertypes readParameters))
    (hraw : ∀ d : Declared, readParameters (g d) = rawTypes (g d) →
      f (d.member readSupertypes readParameters) = f (d.member TypeHead.supertypes rawTypes))
    (htype : ∀ d : Declared, ∀ s ∈ f (d.member TypeHead.supertypes rawTypes), TypeLike 0 s.toList) :
    (found u.declared).flatMap f = u.members.flatMap f ↔
      ∀ d ∈ u.declared, Separable 0 ((g d).map Parameter.tokens) := by
  refine ⟨fun he d hd => separable_of_typeLike fun s hs => ?_, fun h => ?_⟩
  · have hm : s ∈ (found u.declared).flatMap f :=
      List.mem_flatMap.2 ⟨_, List.mem_map_of_mem hd, hread d s hs⟩
    rw [he] at hm
    obtain ⟨m, hm, hs⟩ := List.mem_flatMap.1 hm
    obtain ⟨e, -, rfl⟩ := List.mem_map.1 hm
    exact htype e s hs
  · exact flatMap_members fun d hd => hraw d (readParameters_of_separable (h d hd))

/-- The text of a type is like a type. -/
theorem typeLike_raw (t : TypeExpr) : TypeLike 0 t.raw.toList := by
  rw [TypeExpr.raw, toList_joinTokens]
  exact t.typeLike.2 0 (Int.le_refl 0)

/-- The types of fields are those that are written exactly if the components of records can be told
apart. -/
theorem fieldTypes_found :
    (found u.declared).flatMap Member.fieldTypes = u.members.flatMap Member.fieldTypes ↔
      ∀ d ∈ u.declared, Separable 0 (d.components.map Parameter.tokens) := by
  refine parameters_found ?_ ?_ ?_
  · intro d s hs
    cases d with
    | type => exact hs
    | field | method => cases hs
  · intro d h
    cases d with
    | type => exact h
    | field | method => rfl
  · intro d s hs
    cases d with
    | type => exact typeLike_rawTypes s hs
    | field t => rw [List.mem_singleton.1 hs]; exact typeLike_raw t
    | method => cases hs

/-- The types of parameters are those that are written exactly if the parameter lists can be told
apart. -/
theorem parameterTypes_found :
    (found u.declared).flatMap Member.parameterTypes = u.members.flatMap Member.parameterTypes ↔
      ∀ d ∈ u.declared, Separable 0 (d.parameters.map Parameter.tokens) := by
  refine parameters_found ?_ ?_ ?_
  · intro d s hs
    cases d with
    | type | method => exact hs
    | field => cases hs
  · intro d h
    cases d with
    | type | method => exact h
    | field => rfl
  · intro d s hs
    cases d with
    | type | method => exact typeLike_rawTypes s hs
    | field => cases hs

/-- The types of results are those that are written in any case. -/
theorem returnTypes_found :
    (found u.declared).flatMap Member.returnTypes = u.members.flatMap Member.returnTypes := by
  refine flatMap_members fun d _ => ?_
  cases d with
  | type | field => rfl
  | method head =>
    simp only [Declared.member]
    cases head.result.raw? <;> rfl

/-! ## The record -/

/-- What is read of a text is read of its tokens. -/
theorem readParts_of_tokens {text : String} (h : tokens text.toList = .ok u.tokens) :
    readParts text = .ok (⟨u.packageName, u.imports.map ImportSyntax.statement⟩,
      u.types.flatMap TypeSyntax.tokens, found u.declared) := by
  have hm : members (u.types.flatMap TypeSyntax.tokens) = .ok (found u.declared) :=
    walk_types u.types
  rw [readParts, h]
  show (header u.tokens >>= _) = _
  rw [header_tokens]
  show (members _ >>= _) = _
  rw [hm]
  rfl

/-- A unit is read, from its own text and from any other text with the same tokens. Its record has
its package, its imports, its types with their names and kinds, and the result types of its methods;
and it has the supertypes, the types of fields and those of parameters as they are written under the
exact conditions of `CompilationUnit.ReadAs`. -/
theorem read_compilationUnit (u : CompilationUnit) :
    tokens u.print.toList = .ok u.tokens ∧
      ∀ (text : String) (path : Path) (fqn : String) (kind : SourceKind),
        tokens text.toList = .ok u.tokens →
          ∃ r, ClassRecord.read text path fqn kind = .ok r ∧ u.ReadAs r := by
  refine ⟨tokens_print u, fun text path fqn kind h => ?_⟩
  rw [ClassRecord.read, readParts_of_tokens h]
  refine ⟨_, rfl, ?_⟩
  exact {
    package := rfl
    imports := fun name c => find?_importTable_statements u
    wildcardImports := fun p => by
      simp only [NameSet.mem_ofList, List.filterMap_map, List.mem_filterMap, Function.comp,
        ImportSyntax.class?_statement]
    outline := outline_found
    declarations := declarations_found
    returnTypes := returnTypes_found
    fieldTypes := fieldTypes_found
    parameterTypes := parameterTypes_found }

end

/-- The comparison of two numbers. -/
def comparison : Arguments where
  tokens := [.literal, .mark '<', .literal]
  nested := .token rfl trivial (.token rfl trivial (.token rfl trivial .nil))
  lexemes := by decide

/-- A class with an upper bound among its supertypes, and with a method that has a comparison among
the annotations of its parameters. -/
def boundedUnit : CompilationUnit where
  package := some { first := { text := "p" } }
  imports := [.single { first := { text := "a" }, rest := [{ text := "Foo" }] }]
  distinct := by decide
  types := [.mk
    { modifiers := [], kind := .classType, name := { text := "C" }, typeParameters := []
      clauses := [⟨.implementing, [.named { text := "Foo" } [.type .exact
        (.named { text := "Box" } [.type .upper (.named { text := "Bar" })])]]⟩] }
    [.method
      { modifiers := [], typeParameters := [], result := .void, name := { text := "m" }
        parameters :=
          [{ modifiers :=
               [ ModifierSyntax.annotation { first := { text := "Check" } } (some comparison)]
             type := .named { text := "Foo" }, varargs := false, name := { text := "x" } },
            { modifiers := [], type := .named { text := "Bar" }, varargs := false
              name := { text := "y" } }]
        throws := [] } none]]

/-- The unit in a layout of its own, with a comment. -/
def boundedText : String :=
  "package p; import a.Foo; class C implements Foo<Box<? extends Bar>> \x7b
  void m(@Check(1 < 2) Foo x, Bar y); // No body.
\x7d"

/-- The text is read, though not all of it as it is written. -/
theorem read_boundedText :
    ∃ r, ClassRecord.read boundedText ⟨"C.java"⟩ "p.C" .production = .ok r ∧
      boundedUnit.ReadAs r := by
  have ht : (tokens boundedText.toList).toOption = some boundedUnit.tokens := by decide +kernel
  exact (read_compilationUnit boundedUnit).2 _ _ _ _ (eq_ok_of_toOption ht)

/-- Not every unit is read as it is written: the supertype of the class is cut at its upper bound,
and the parameters of the method are not cut at their comma. -/
theorem exists_supertypes_not_read :
    ∃ r, ClassRecord.read boundedUnit.print ⟨"C.java"⟩ "p.C" .production = .ok r ∧
      r.declarations ≠ boundedUnit.declarations ∧
      r.parameterTypes ≠ boundedUnit.members.flatMap Member.parameterTypes := by
  have hv : (ClassRecord.read boundedUnit.print ⟨"C.java"⟩ "p.C" .production).toOption.map
      (fun r => (r.declarations, r.parameterTypes)) =
        some ([⟨"C", "C", .classType, ["Foo<Box<?", "Bar>>"]⟩], ["Foox,Bar"]) := by
    decide +kernel
  obtain ⟨r, hr, he⟩ := Option.map_eq_some_iff.1 hv
  obtain ⟨hd, hp⟩ := Prod.mk.inj he
  refine ⟨r, eq_ok_of_toOption hr, ?_, ?_⟩
  · rw [hd]
    decide +kernel
  · rw [hp]
    decide +kernel

end TestImpact.Java
