import TestImpact.Proofs.Java.CommaParts

/-!
# Fields and signatures read back

What the readers of fields and of signatures make of declarations that are written out. Main
statements: a field and a parameter have their types (`fieldType?_tokens`, `parameterType?_tokens`);
and a method has its result, and its parameters are read from the list between its parentheses
(`signature_afterModifiers`).
-/

namespace TestImpact.Java

section
variable {t : Token} {ts us rest : List Token} {parts : List (List Token)} {d : Nat}

/-! ## Types in front of names -/

/-- Behind a word there are no array brackets to drop. -/
theorem dropArrayMarks_word {x : String} : dropArrayMarks (ts ++ [.word x]) = ts ++ [.word x] := by
  rw [dropArrayMarks, List.reverse_append, dropArrayMarks.go.eq_def]
  simp

/-- In front of the name stands the type. -/
theorem typeBeforeName?_append {x : String} : typeBeforeName? (ts ++ [.word x]) = some ts := by
  rw [typeBeforeName?, dropArrayMarks_word, List.reverse_append]
  simp

/-- Up to an opening mark stand the type and the name in front of it. -/
theorem takeWhile_typeAndName (type : TypeExpr) (x : String) {c : Char}
    (hc : c ∉ ['.', '?', '<', '>', ',', '[', ']']) :
    (type.tokens ++ .word x :: rest).takeWhile (· ≠ .mark c) =
      type.tokens ++ .word x :: rest.takeWhile (· ≠ .mark c) := by
  have hne : ∀ t ∈ type.tokens, (t ≠ .mark c : Bool) = true := fun t ht =>
    decide_eq_true ((type.isTypeToken t ht).ne hc)
  rw [List.takeWhile_append_of_pos hne, List.takeWhile_cons_of_pos (by simp)]

/-- A field has its type. -/
theorem fieldType?_tokens (type : TypeExpr) (x : String) (value : Option Value) :
    fieldType? (type.tokens ++ .word x :: valueTokens value) = some type.raw := by
  have hw : (type.tokens ++ .word x :: valueTokens value).takeWhile (· ≠ .mark '=') =
      type.tokens ++ [.word x] := by
    rw [takeWhile_typeAndName type x (by decide)]
    cases value <;> simp [valueTokens]
  have hp : topLevelParts (type.tokens ++ [.word x]) = [type.tokens ++ [.word x]] := by
    refine topLevelParts_single (by simp) ?_
    rw [BracketCount.depth_append_of (BracketCount.depth_type fitsTypes_comma type 0)]
    rfl
  obtain ⟨w, r, he, hs, -⟩ := type.tokens_eq
  rw [fieldType?, hw, hp]
  simp only [List.head?_cons, Option.bind_eq_bind, Option.bind_some, typeBeforeName?_append]
  rw [TypeExpr.raw, he]
  simp [hs.not_isReserved]

/-! ## Parameters -/

/-- A type in front of a declared name starts a declaration. -/
theorem declares_type (type : TypeExpr) (h : ts.head? ≠ some (.mark '-')) :
    Declares (type.tokens ++ ts) := by
  obtain ⟨w, r, he, hs, hr⟩ := type.tokens_eq
  rw [he]
  refine .word hs.not_isModifier fun hh => ?_
  cases r with
  | nil => exact h hh
  | cons t r => exact (hr t List.mem_cons_self).ne (by decide) (Option.some.inj hh)

/-- A parameter behind its modifiers: its type, an ellipsis or none, and its name. -/
theorem Parameter.exists_dots (p : Parameter) :
    ∃ dots, (dots = [] ∨ dots = [.ellipsis]) ∧
      p.tokens = modifierTokens p.modifiers ++ (p.type.tokens ++ (dots ++ [.word p.name.text])) ∧
      ∀ more, dropModifiers (p.tokens ++ more) =
        p.type.tokens ++ (dots ++ .word p.name.text :: more) := by
  refine ⟨if p.varargs then [.ellipsis] else [], ?_, rfl, fun more => ?_⟩
  · split
    · exact .inr rfl
    · exact .inl rfl
  · have hd : Declares (p.type.tokens ++
        ((if p.varargs then [.ellipsis] else []) ++ .word p.name.text :: more)) := by
      refine declares_type p.type ?_
      cases p.varargs <;> simp
    rw [← dropModifiers_modifierTokens hd p.modifiers, Parameter.tokens]
    simp only [List.append_assoc, List.singleton_append]

/-- The type of a parameter is all that stands in front of its last word, an ellipsis aside. -/
theorem parameterType?_eq {x : String} (hd : dropModifiers rest = ts ++ (us ++ [.word x]))
    (hn : ts ≠ []) (hl : ts.getLast? ≠ some .ellipsis) :
    parameterType? rest =
      some (joinTokens (ts ++ if us.getLast? = some .ellipsis then us.dropLast else us)) := by
  rw [parameterType?, hd, ← List.append_assoc, typeBeforeName?_append]
  have he : (if (ts ++ us).getLast? = some .ellipsis then (ts ++ us).dropLast else ts ++ us) =
      ts ++ if us.getLast? = some .ellipsis then us.dropLast else us := by
    rw [List.getLast?_append]
    cases hu : us.getLast? with
    | none =>
      rw [List.getLast?_eq_none_iff.1 hu]
      simp [hl]
    | some t =>
      have hne : us ≠ [] := by
        rintro rfl
        cases hu
      rw [Option.some_or]
      split
      · exact List.dropLast_append_of_ne_nil hne
      · rfl
  simp only [Option.bind_eq_bind, Option.bind_some, he]
  simp [hn]

/-- A parameter has its type. -/
theorem parameterType?_tokens (p : Parameter) : parameterType? p.tokens = some p.type.raw := by
  obtain ⟨dots, hdots, -, hd⟩ := p.exists_dots
  have hl : p.type.tokens.getLast? ≠ some .ellipsis := fun hl =>
    (p.type.isTypeToken _ (List.mem_of_getLast? hl)).ne_ellipsis rfl
  have hne : p.type.tokens ≠ [] := by
    obtain ⟨w, r, he, -⟩ := p.type.tokens_eq
    rw [he]
    exact List.cons_ne_nil _ _
  have hd := hd []
  rw [List.append_nil] at hd
  rw [parameterType?_eq hd hne hl]
  rcases hdots with rfl | rfl
  · exact congrArg (fun ts => some (joinTokens ts)) (List.append_nil _)
  · exact congrArg (fun ts => some (joinTokens ts)) (List.append_nil _)

/-! ## Methods -/

/-- A reader passes over type parameters if it passes over types, commas and ampersands. -/
theorem depth_typeParameterList {k : BracketCount} (hk : k.FitsTypes)
    (hs : ∀ d, k.step d (.mark ',') = some d ∧ k.step d (.mark '&') = some d)
    (ps : List TypeParameter) :
    k.depth d (separated (ps.map TypeParameter.tokens)) = some d := by
  have hbounds : ∀ types : List TypeExpr,
      k.depth d (types.flatMap fun u => .mark '&' :: u.tokens) = some d := by
    intro types
    induction types with
    | nil => rfl
    | cons u types ih =>
      rw [List.flatMap_cons, List.cons_append, BracketCount.depth_cons_of (hs d).2,
        BracketCount.depth_append_of (BracketCount.depth_type hk u d), ih]
  have hp : ∀ p : TypeParameter, k.depth d p.tokens = some d := by
    intro p
    rw [TypeParameter.tokens, BracketCount.depth_cons_of hk.word]
    cases p.bounds with
    | nil => rfl
    | cons u types =>
      rw [boundTokens, BracketCount.depth_cons_of hk.word,
        BracketCount.depth_append_of (BracketCount.depth_type hk u d), hbounds]
  cases ps with
  | nil => rfl
  | cons p ps =>
    rw [List.map_cons, separated, BracketCount.depth_append_of (hp p)]
    induction ps with
    | nil => rfl
    | cons q ps ih =>
      rw [List.map_cons, List.flatMap_cons, List.cons_append, BracketCount.depth_cons_of (hs d).1,
        BracketCount.depth_append_of (hp q), ih]

/-- Type parameters in front of something else are dropped. -/
theorem dropBracketed_typeParameters (ps : List TypeParameter)
    (h : rest.head? ≠ some (.mark '<')) :
    dropBracketed '<' '>' (typeParameterTokens ps ++ rest) = rest := by
  rw [typeParameterTokens]
  split
  · cases rest with
    | nil => rfl
    | cons t rest => exact if_neg fun ht => h (congrArg some ht)
  · have hd : (pairCount '<' '>').depth 0 (separated (ps.map TypeParameter.tokens)) = some 0 :=
      depth_typeParameterList fitsTypes_angles (fun _ => ⟨rfl, rfl⟩) ps
    rw [List.cons_append, List.append_assoc, dropBracketed, if_pos rfl]
    show afterClose '<' '>' (_ ++ .mark '>' :: rest) = rest
    rw [afterClose, splitClose_append (by decide) hd]

/-- Nothing is found inside of type parameters. -/
theorem firstOpener_typeParameters (ps : List TypeParameter) :
    firstOpener 0 (typeParameterTokens ps ++ rest) = firstOpener 0 rest := by
  have hd : openerCount.depth 0 (typeParameterTokens ps) = some 0 := by
    rw [typeParameterTokens]
    split
    · rfl
    · have hi : openerCount.depth 1 (separated (ps.map TypeParameter.tokens)) = some 1 :=
        depth_typeParameterList fitsTypes_opener (fun _ => ⟨rfl, rfl⟩) ps
      rw [BracketCount.depth_cons_of (e := 1) rfl, BracketCount.depth_append_of hi]
      rfl
  exact firstOpener_append hd

/-- A word that is none of the four starts no declaration of a type. -/
theorem declaration?_eq_none {w : String} (hw : w ∉ ["class", "interface", "enum", "record"]) :
    declaration? (.word w :: rest) = none := by
  unfold declaration?
  split <;> simp_all

/-- A result and a name behind it. -/
def ResultSyntax.before (r : ResultSyntax) (name : Identifier) (rest : List Token) : List Token :=
  r.tokens ++ .word name.text :: rest

section
variable (r : ResultSyntax) (name : Identifier)

/-- A method starts with a word that starts no type declaration. -/
theorem ResultSyntax.before_eq (h : rest.head? ≠ some (.mark '-')) :
    ∃ w more, r.before name rest = .word w :: more ∧ isModifier w = false ∧
      w ∉ ["class", "interface", "enum", "record"] ∧ more.head? ≠ some (.mark '-') := by
  have hres : ∀ w, StartsType w → w ∉ ["class", "interface", "enum", "record"] := by
    intro w hw hm
    have hr : ∀ v ∈ ["class", "interface", "enum", "record"], isReserved v = true := by decide
    exact hw.ne (hr w hm) rfl
  cases r with
  | constructor =>
    exact ⟨name.text, rest, rfl, name.not_isModifier, hres _ (.inl name.valid), h⟩
  | void => exact ⟨"void", _, rfl, by decide, by decide, by simp⟩
  | type type =>
    obtain ⟨w, more, he, hs, hm⟩ := type.tokens_eq
    refine ⟨w, more ++ .word name.text :: rest, ?_, hs.not_isModifier, hres w hs, fun hh => ?_⟩
    · rw [before, tokens, he]
      rfl
    · cases more with
      | nil => cases hh
      | cons t more => exact (hm t List.mem_cons_self).ne (by decide) (Option.some.inj hh)

/-- A result has no other marks than a type. -/
theorem ResultSyntax.ne_of_mem {c : Char} (ht : t ∈ r.tokens)
    (hc : c ∉ ['.', '?', '<', '>', ',', '[', ']']) : t ≠ .mark c := by
  cases r with
  | constructor => cases ht
  | void => rw [List.mem_singleton.1 ht]; nofun
  | type type => exact (type.isTypeToken t ht).ne hc

/-- No parenthesis and no equals sign stand in a result and a name. -/
theorem firstOpener_before (h : firstOpener 0 rest = some '(') :
    firstOpener 0 (r.before name rest) = some '(' := by
  have hd : openerCount.depth 0 (r.tokens ++ [.word name.text]) = some 0 := by
    cases r with
    | constructor | void => rfl
    | type type =>
      exact BracketCount.depth_append_of (BracketCount.depth_type fitsTypes_opener type 0)
  have he : r.before name rest = (r.tokens ++ [.word name.text]) ++ rest := by
    simp [ResultSyntax.before]
  rw [he]
  exact (firstOpener_append hd).trans h

end

/-- A method has its result, and its parameters are those between its parentheses. -/
theorem signature_afterModifiers (h : MethodHead) :
    signature h.afterModifiers =
      (h.result.raw?, parameterTypes (separated (h.parameters.map Parameter.tokens))) := by
  obtain ⟨mods, typeParams, result, name, ps, throws⟩ := h
  have hp : (parameterTokens ps ++ throwsTokens throws).head? ≠ some (.mark '-') := by
    simp [parameterTokens]
  obtain ⟨w, more, he, -⟩ := result.before_eq name hp
  have ha : (MethodHead.mk mods typeParams result name ps throws).afterModifiers =
      typeParameterTokens typeParams ++
        result.before name (parameterTokens ps ++ throwsTokens throws) := rfl
  have hd : dropBracketed '<' '>'
      (MethodHead.mk mods typeParams result name ps throws).afterModifiers =
      (result.tokens ++ [.word name.text]) ++ .mark '(' ::
        (separated (ps.map Parameter.tokens) ++ .mark ')' :: throwsTokens throws) := by
    rw [ha, dropBracketed_typeParameters typeParams (by rw [he]; simp)]
    simp [ResultSyntax.before, parameterTokens]
  have hn : .mark '(' ∉ result.tokens ++ [.word name.text] := by
    intro hm
    rcases List.mem_append.1 hm with hm | hm
    · exact result.ne_of_mem hm (by decide) rfl
    · cases List.mem_singleton.1 hm
  obtain ⟨htake, hdrop⟩ := cut_append_cons hn
    (separated (ps.map Parameter.tokens) ++ .mark ')' :: throwsTokens throws)
  have hi : insideParentheses (separated (ps.map Parameter.tokens) ++
      .mark ')' :: throwsTokens throws) = separated (ps.map Parameter.tokens) := by
    rw [insideParentheses,
      splitClose_append (by decide)
        ((headerClosed_wellNested.parameterList ps).depth .parentheses 0)]
  rw [signature, hd]
  simp only [htake, hdrop, List.reverse_append, List.reverse_cons, List.reverse_nil,
    List.nil_append, List.singleton_append, List.reverse_reverse, hi]
  cases result with
  | constructor | void => rfl
  | type type =>
    obtain ⟨w, r, ht, hs, -⟩ := type.tokens_eq
    have hv : Token.word w ≠ .word "void" := fun hv => hs.ne_void (Token.word.inj hv)
    rw [ResultSyntax.tokens, ResultSyntax.raw?, TypeExpr.raw, ht]
    simp only [if_neg hv]

end

end TestImpact.Java
