import TestImpact.Proofs.Java.Imports
import TestImpact.Proofs.Java.Roles
import TestImpact.Proofs.Java.TypeText

/-!
# The header of a unit

Main statements: the header that is read of a unit has its package and its imports, and goes up to
its first type (`header_tokens`); and an import is read as the class that it names
(`ImportSyntax.class?_statement`), so that with different simple names each of them is found
(`find?_importTable_statements`).
-/

namespace TestImpact.Java

/-- The import as it is read. -/
def ImportSyntax.statement (i : ImportSyntax) : Import := ⟨joinTokens i.nameTokens, i.isStatic⟩

section
variable {ts us rest : List Token} {read : Header} {c k : String}

/-! ## The statements -/

/-- The name of an import has no semicolon in it. -/
theorem ImportSyntax.semicolon_not_mem (i : ImportSyntax) : .mark ';' ∉ i.nameTokens := by
  cases i with
  | single name => exact name.mark_not_mem (by decide)
  | onDemand owner | staticOnDemand owner =>
    have hn := owner.mark_not_mem (c := ';') (by decide)
    simp [nameTokens, hn]
  | staticSingle owner member =>
    have hn := owner.mark_not_mem (c := ';') (by decide)
    simp [nameTokens, hn]

/-- The name of an import that is not static does not start with the word for it. -/
theorem ImportSyntax.head?_ne (i : ImportSyntax) (h : i.isStatic = false) :
    i.nameTokens.head? ≠ some (.word "static") := by
  have hn : ∀ n : DottedName, some (Token.word n.first.text) ≠ some (.word "static") := by
    intro n he
    exact n.first.ne (by decide) (Token.word.inj (Option.some.inj he))
  cases i with
  | single name => exact hn name
  | onDemand package => exact hn package
  | staticSingle | staticOnDemand => cases h

/-- A modifier or the kind of a type starts with one of a few tokens. -/
theorem head?_type (kind : KindSyntax) (ms : List ModifierSyntax) {t : Token}
    (ht : (modifierTokens ms ++ (kind.words ++ rest)).head? = some t) :
    t ∈ .mark '@' ::
      (modifiers ++ ["non", "class", "interface", "enum", "record"]).map Token.word := by
  cases ms with
  | nil =>
    cases kind <;> cases ht <;> decide
  | cons m ms =>
    cases m with
    | word w hw =>
      cases ht
      exact List.mem_cons_of_mem _ (List.mem_map_of_mem
        (List.mem_append_left _ (List.contains_iff_mem.1 hw)))
    | nonSealed => cases ht; decide
    | annotation name args => cases args <;> cases ht <;> exact List.mem_cons_self

/-- The types of a unit start with no statement. -/
theorem startsBody_types (types : List TypeSyntax) :
    StartsBody (types.flatMap TypeSyntax.tokens) := by
  cases types with
  | nil => exact ⟨by simp, by simp, by simp, by simp⟩
  | cons t types =>
    obtain ⟨head, ms⟩ := t
    obtain ⟨more, he⟩ : ∃ more, (TypeSyntax.mk head ms :: types).flatMap TypeSyntax.tokens =
        modifierTokens head.modifiers ++ (head.kind.words ++ .word head.name.text :: more) :=
      ⟨_, by rw [List.flatMap_cons, TypeSyntax.tokens, TypeHead.tokens]; simp only
        [List.append_assoc, List.cons_append]; rfl⟩
    have hd : Declares (head.kind.words ++ .word head.name.text :: more) := by
      cases head.kind with
      | annotationType => exact .annotationType
      | _ => exact .word (by decide) (by simp)
    have hn : ∀ t ∈ .mark '@' ::
        (modifiers ++ ["non", "class", "interface", "enum", "record"]).map Token.word,
        t ≠ .mark ';' ∧ t ≠ .word "package" ∧ t ≠ .word "import" := by decide
    rw [he]
    refine ⟨fun h => ?_, fun h => ?_, fun h => ?_, fun _ => ?_⟩
    · exact (hn _ (head?_type head.kind head.modifiers h)).1 rfl
    · exact (hn _ (head?_type head.kind head.modifiers h)).2.1 rfl
    · exact (hn _ (head?_type head.kind head.modifiers h)).2.2 rfl
    · rw [dropModifiers_modifierTokens hd]
      cases head.kind <;> simp [KindSyntax.words]

/-- The imports of a unit are read one after another. -/
theorem headerFrom_imports (hb : StartsBody rest) (is : List ImportSyntax) :
    headerFrom read (is.flatMap ImportSyntax.tokens ++ rest) =
      .ok ({ read with imports := read.imports ++ is.map ImportSyntax.statement }, rest) := by
  induction is generalizing read with
  | nil =>
    rw [List.flatMap_nil, List.map_nil, List.append_nil]
    exact headerFrom_body hb
  | cons i is ih =>
    have he : (i :: is).flatMap ImportSyntax.tokens ++ rest =
        importWords i.isStatic ++
          (i.nameTokens ++ .mark ';' :: (is.flatMap ImportSyntax.tokens ++ rest)) := by
      simp [ImportSyntax.tokens]
    rw [he, headerFrom_import i.isStatic i.semicolon_not_mem i.head?_ne, ih, List.append_assoc]
    rfl

/-- The header of a unit. -/
theorem header_tokens (u : CompilationUnit) :
    header u.tokens = .ok (⟨u.packageName, u.imports.map ImportSyntax.statement⟩,
      u.types.flatMap TypeSyntax.tokens) := by
  obtain ⟨package, imports, distinct, types⟩ := u
  have hi : ∀ package, headerFrom ⟨package, []⟩
      (imports.flatMap ImportSyntax.tokens ++ types.flatMap TypeSyntax.tokens) =
        .ok (⟨package, imports.map ImportSyntax.statement⟩, types.flatMap TypeSyntax.tokens) :=
    fun _ => headerFrom_imports (startsBody_types types) imports
  cases package with
  | none => exact hi ""
  | some name =>
    have he : CompilationUnit.tokens ⟨some name, imports, distinct, types⟩ =
        .word "package" :: (name.tokens ++ .mark ';' ::
          (imports.flatMap ImportSyntax.tokens ++ types.flatMap TypeSyntax.tokens)) := by
      simp [CompilationUnit.tokens, packageTokens]
    rw [he, header, headerFrom_package (.inl rfl) (name.mark_not_mem (by decide)), hi]
    rfl

/-! ## The imports -/

/-- The text of a joined list is that of its parts. -/
theorem joinTokens_append : joinTokens (ts ++ us) = joinTokens ts ++ joinTokens us := by
  rw [← String.toList_inj, String.toList_append, toList_joinTokens, toList_joinTokens,
    toList_joinTokens, charsOf_append]

/-- A name that ends in a word is not imported on demand. -/
theorem onDemand?_eq_none {i : Import} {c : Char} (h : i.name.toList.getLast? = some c)
    (hc : isWordPart c = true) : i.onDemand? = none := by
  cases hd : i.onDemand? with
  | none => rfl
  | some package =>
    rw [onDemand?_eq_some.1 hd, String.toList_append] at h
    have hl : (package.toList ++ ".*".toList).getLast? = some '*' := by simp
    rw [hl] at h
    cases h
    cases hc

/-- The text of a dotted name is not empty. -/
theorem DottedName.text_ne (n : DottedName) : n.text ≠ "" := by
  intro he
  obtain ⟨c, hc, -⟩ := (TypeName.dotted n).getLast?
  have ht : (TypeName.dotted n).text = n.text := rfl
  rw [ht, he] at hc
  cases hc

/-- An import is read as the class that it names, and as what it takes on demand. -/
theorem ImportSyntax.class?_statement (i : ImportSyntax) :
    i.statement.class? = i.class? ∧ i.statement.onDemand? = i.onDemand? := by
  have hdemand : ∀ (n : DottedName) (s : Bool),
      Import.onDemand? ⟨joinTokens (n.tokens ++ [.mark '.', .mark '*']), s⟩ = some n.text := by
    intro n s
    rw [onDemand?_eq_some]
    exact joinTokens_append
  cases i with
  | single name =>
    obtain ⟨c, hl, hc⟩ := (TypeName.dotted name).getLast?
    have hn : Import.onDemand? (statement (single name)) = none := onDemand?_eq_none hl hc
    exact ⟨by rw [Import.class?, hn]; rfl, hn⟩
  | onDemand package =>
    have hs : Import.onDemand? (statement (onDemand package)) = some package.text :=
      hdemand package false
    exact ⟨by rw [Import.class?, hs]; rfl, hs⟩
  | staticOnDemand owner =>
    have hs : Import.onDemand? (statement (staticOnDemand owner)) = some owner.text :=
      hdemand owner true
    exact ⟨by rw [Import.class?, hs]; rfl, hs⟩
  | staticSingle owner member =>
    have hname : (statement (staticSingle owner member)).name =
        owner.text ++ "." ++ member.text := by
      rw [String.append_assoc]
      exact joinTokens_append.trans
        (congrArg (fun s => owner.text ++ ("." ++ s)) String.append_empty)
    have hdot : '.' ∉ member.text.toList := fun hm =>
      absurd (Identifier.isWordPart hm).1 (by decide)
    obtain ⟨c, hl, hc⟩ := member.getLast? (owner.text ++ ".").toList
    rw [← String.toList_append, ← hname] at hl
    exact ⟨class?_eq_some.2 ⟨member.text, hdot, hname, .inl owner.text_ne⟩, onDemand?_eq_none hl hc⟩

/-- The classes that a unit imports are found by their simple names. -/
theorem find?_importTable_statements (u : CompilationUnit) :
    (importTable (u.imports.map ImportSyntax.statement)).find? k = some c ↔
      ∃ i ∈ u.imports, i.class? = some c ∧ simpleName c = k := by
  have hclasses : (u.imports.map ImportSyntax.statement).filterMap Import.class? =
      u.imports.filterMap ImportSyntax.class? := by
    rw [List.filterMap_map]
    exact congrArg (List.filterMap · u.imports) (funext fun i => i.class?_statement.1)
  have hd := u.distinct
  rw [importTable, hclasses, NameMap.find?_ofList]
  refine ⟨?_, ?_⟩
  · rintro ⟨before, after, he, -⟩
    have hm : (k, c) ∈
        (u.imports.filterMap ImportSyntax.class?).map fun c => (simpleName c, c) := by
      rw [he]
      simp
    obtain ⟨c', hc, hp⟩ := List.mem_map.1 hm
    cases hp
    obtain ⟨i, hi, hc⟩ := List.mem_filterMap.1 hc
    exact ⟨i, hi, hc, rfl⟩
  · rintro ⟨i, hi, hc, rfl⟩
    obtain ⟨before, after, he⟩ := List.append_of_mem (List.mem_filterMap.2 ⟨i, hi, hc⟩)
    rw [he, List.map_append, List.map_cons, List.nodup_append, List.nodup_cons] at hd
    refine ⟨before.map fun c => (simpleName c, c), after.map fun c => (simpleName c, c), ?_, ?_⟩
    · rw [he, List.map_append, List.map_cons]
    · intro e hm hk
      obtain ⟨c', hc', rfl⟩ := List.mem_map.1 hm
      exact hd.2.1.1 (List.mem_map.2 ⟨c', hc', hk⟩)

end

end TestImpact.Java
