import TestImpact.Proofs.Java.Signatures

/-!
# What a segment is taken for

A segment in front of a brace or a semicolon is taken for what it declares. Main statements: the
role of a segment in front of a block (`blockRole_typeHead`, `blockRole_methodHead`,
`blockRole_value`, `blockRole_modifiers`); the member that a semicolon completes
(`statementMember?_field`, `statementMember?_methodHead`); and what is read of the header of a type
(`readHeader_afterName`).
-/

namespace TestImpact.Java

section
variable {ts : List Token}

/-! ## Methods -/

/-- Behind its modifiers, a method has type parameters, its result and name, and parameters. -/
theorem MethodHead.afterModifiers_eq (h : MethodHead) :
    h.afterModifiers = typeParameterTokens h.typeParameters ++
      h.result.before h.name (parameterTokens h.parameters ++ throwsTokens h.throws) := rfl

/-- Behind its modifiers, a method declares something that is no type. -/
theorem MethodHead.declares (h : MethodHead) :
    Declares h.afterModifiers ∧ h.afterModifiers ≠ [] ∧ declaration? h.afterModifiers = none := by
  rw [h.afterModifiers_eq, typeParameterTokens]
  split
  · have hp : (parameterTokens h.parameters ++ throwsTokens h.throws).head? ≠ some (.mark '-') := by
      simp [parameterTokens]
    obtain ⟨w, more, he, hm, hw, hd⟩ := h.result.before_eq h.name hp
    rw [List.nil_append, he]
    exact ⟨.word hm hd, List.cons_ne_nil _ _, declaration?_eq_none hw⟩
  · exact ⟨.angle, List.cons_ne_nil _ _, rfl⟩

/-- Exactly the modifiers of a method are dropped. -/
theorem MethodHead.dropModifiers (h : MethodHead) : dropModifiers h.tokens = h.afterModifiers :=
  dropModifiers_modifierTokens h.declares.1 h.modifiers

/-- A parenthesis comes first in a method, and no equals sign. -/
theorem MethodHead.firstOpener (h : MethodHead) : firstOpener 0 h.afterModifiers = some '(' := by
  rw [h.afterModifiers_eq, firstOpener_typeParameters]
  exact firstOpener_before _ _ rfl

/-- A block behind the header of a method is its body. -/
theorem blockRole_methodHead (h : MethodHead) : blockRole h.tokens = .method := by
  rw [blockRole, h.dropModifiers, h.declares.2.2, h.firstOpener]
  rfl

/-- A semicolon behind the header of a method completes it. -/
theorem statementMember?_methodHead (h : MethodHead) :
    statementMember? h.tokens = some (.method h.result.raw?
      (parameterTypes (separated (h.parameters.map Parameter.tokens)))) := by
  have hn : ¬(h.afterModifiers = [] ∨ (declaration? h.afterModifiers).isSome = true) := by
    rw [h.declares.2.2]
    simpa using h.declares.2.1
  rw [statementMember?, h.dropModifiers]
  simp only [if_neg hn, h.firstOpener, if_true, signature_afterModifiers]

/-! ## Fields and initializers -/

/-- The tokens of a field in front of its semicolon. -/
def fieldTokens (mods : List ModifierSyntax) (type : TypeExpr) (name : Identifier)
    (value : List Token) : List Token :=
  modifierTokens mods ++ (type.tokens ++ .word name.text :: value)

/-- Behind its modifiers, a field declares something that is no type. -/
theorem fieldTokens_eq (type : TypeExpr) (name : Identifier) (value : List Token)
    (hv : value.head? ≠ some (.mark '-')) :
    Declares (type.tokens ++ .word name.text :: value) ∧
      declaration? (type.tokens ++ .word name.text :: value) = none := by
  obtain ⟨w, more, he, hm, hw, hd⟩ := (ResultSyntax.type type).before_eq name hv
  rw [ResultSyntax.before, ResultSyntax.tokens] at he
  rw [he]
  exact ⟨.word hm hd, declaration?_eq_none hw⟩

/-- What comes first in a field is what comes first in its value. -/
theorem firstOpener_field (type : TypeExpr) (name : Identifier) (value : List Token) :
    firstOpener 0 (type.tokens ++ .word name.text :: value) = firstOpener 0 value := by
  have hd : openerCount.depth 0 (type.tokens ++ [.word name.text]) = some 0 :=
    BracketCount.depth_append_of (BracketCount.depth_type fitsTypes_opener type 0)
  have he : type.tokens ++ .word name.text :: value =
      (type.tokens ++ [.word name.text]) ++ value := by
    simp
  rw [he]
  exact firstOpener_append hd

/-- A block behind the equals sign of a field is a part of its value. -/
theorem blockRole_value (mods : List ModifierSyntax) (type : TypeExpr) (name : Identifier) :
    blockRole (fieldTokens mods type name (.mark '=' :: ts)) = .value := by
  obtain ⟨hd, hn⟩ := fieldTokens_eq type name (.mark '=' :: ts) (by simp)
  rw [blockRole, fieldTokens, dropModifiers_modifierTokens hd, hn, firstOpener_field]
  rfl

/-- A semicolon behind a field completes it. -/
theorem statementMember?_field (mods : List ModifierSyntax) (type : TypeExpr) (name : Identifier)
    (value : Option Value) :
    statementMember? (fieldTokens mods type name (valueTokens value)) = some (.field type.raw) := by
  obtain ⟨hd, hn⟩ := fieldTokens_eq type name (valueTokens value)
    (by cases value <;> simp [valueTokens])
  have ho : firstOpener 0 (valueTokens value) ≠ some '(' := by
    cases value <;> simp [valueTokens, firstOpener]
  have hs : ¬(type.tokens ++ .word name.text :: valueTokens value = [] ∨
      (declaration? (type.tokens ++ .word name.text :: valueTokens value)).isSome = true) := by
    rw [hn]
    simp
  rw [statementMember?, fieldTokens, dropModifiers_modifierTokens hd]
  simp only [if_neg hs, firstOpener_field, if_neg ho, fieldType?_tokens, Option.map_some]

/-- A block behind nothing but modifiers is an initializer. -/
theorem blockRole_modifiers (mods : List ModifierSyntax) :
    blockRole (modifierTokens mods) = .initializer := by
  have hd : dropModifiers (modifierTokens mods) = [] := by
    have := dropModifiers_modifierTokens .nil mods
    rwa [List.append_nil] at this
  rw [blockRole, hd]
  rfl

/-! ## Types -/

/-- The words of a type's kind and its name are told as a declaration. -/
theorem declaration?_words (h : TypeHead) :
    Declares (h.kind.words ++ .word h.name.text :: h.afterName) ∧
      declaration? (h.kind.words ++ .word h.name.text :: h.afterName) =
        some (h.kind.kind, h.name.text, h.afterName) := by
  obtain ⟨mods, kind, name, typeParams, clauses⟩ := h
  cases kind with
  | classType | interfaceType | enumType => exact ⟨.word (by decide) nofun, rfl⟩
  | annotationType => exact ⟨.annotationType, rfl⟩
  | recordType components =>
    refine ⟨.word (by decide) nofun, ?_⟩
    rw [TypeHead.afterName, typeParameterTokens]
    cases typeParams <;> rfl

/-- A block behind the header of a type is its body. -/
theorem blockRole_typeHead (h : TypeHead) :
    blockRole h.tokens = .body h.kind.kind h.name.text h.afterName := by
  obtain ⟨hd, hn⟩ := declaration?_words h
  rw [blockRole, TypeHead.tokens, dropModifiers_modifierTokens hd, hn]

/-- Clauses start with a word. -/
theorem head?_clauses (cs : List Clause) {c : Char} :
    (cs.flatMap Clause.tokens).head? ≠ some (.mark c) := by
  cases cs <;> simp [Clause.tokens]

/-- What is read of the header of a type. -/
theorem readHeader_afterName (h : TypeHead) (outer : String) :
    readHeader outer h.kind.kind h.name.text h.afterName =
      (h.declaration outer (supertypes (h.clauses.flatMap Clause.tokens)),
        parameterTypes (separated (h.kind.components.map Parameter.tokens))) := by
  obtain ⟨mods, kind, name, typeParams, clauses⟩ := h
  have hd : dropBracketed '<' '>' (TypeHead.mk mods kind name typeParams clauses).afterName =
      kind.componentTokens ++ clauses.flatMap Clause.tokens := by
    refine dropBracketed_typeParameters typeParams ?_
    cases kind with
    | recordType => simp [KindSyntax.componentTokens, parameterTokens]
    | _ => exact head?_clauses clauses
  rw [readHeader, hd]
  cases kind with
  | recordType ps =>
    have hs : splitClose '(' ')' 0 (separated (ps.map Parameter.tokens) ++
        .mark ')' :: clauses.flatMap Clause.tokens) =
          some (separated (ps.map Parameter.tokens), clauses.flatMap Clause.tokens) :=
      splitClose_append (by decide)
        ((headerClosed_wellNested.parameterList ps).depth .parentheses 0)
    have he : KindSyntax.componentTokens (.recordType ps) ++ clauses.flatMap Clause.tokens =
        .mark '(' :: (separated (ps.map Parameter.tokens) ++
          .mark ')' :: clauses.flatMap Clause.tokens) := by
      simp [KindSyntax.componentTokens, parameterTokens]
    rw [he]
    simp only [KindSyntax.kind, afterComponents, if_true, dropBracketed, afterClose, hs,
      componentTypes, insideParentheses]
    rfl
  | _ => rfl

end

end TestImpact.Java
