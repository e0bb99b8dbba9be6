import TestImpact.Proofs.Java.Modifiers

/-!
# Headers as they are written

What the tokens in front of a body or a semicolon look like: which words they start with, and how
their brackets nest. Main statements: a type starts with a word that starts nothing else
(`TypeExpr.tokens_eq`); what is kept when headers are put together holds of the headers of types and
of methods (`HeaderClosed.typeHead`, `HeaderClosed.methodHead`); so they are nested, and neither a
brace nor a semicolon stands outside of their brackets (`headerClosed_wellNested`).
-/

namespace TestImpact.Java

/-- A word that a type may start with. -/
def StartsType (w : String) : Prop := isIdentifier w = true ∨ isPrimitive w = true ∧ w ≠ "void"

/-- A token that neither ends a member nor starts a block. -/
def InHeader (t : Token) : Prop := t ≠ .mark ';' ∧ t ≠ .mark '{'

section
variable {w : String} {t : Token} {ts us rest : List Token} {p : Token → Prop}

/-! ## The first word of a type -/

/-- A word that starts a type is not reserved. -/
theorem StartsType.not_isReserved (h : StartsType w) : isReserved w = false := by
  rcases h with h | ⟨h, -⟩
  · simp [isReserved, (Identifier.mk w h).not_isKeyword]
  · simp [isReserved, h]

/-- A word that starts a type is none of the reserved ones. -/
theorem StartsType.ne {v : String} (h : StartsType w) (hv : isReserved v = true) : w ≠ v := by
  rintro rfl
  rw [h.not_isReserved] at hv
  cases hv

/-- A word that starts a type is no modifier. -/
theorem StartsType.not_isModifier (h : StartsType w) : isModifier w = false := by
  have hm : ∀ w ∈ modifiers, isReserved w = true := by decide
  refine Bool.eq_false_iff.2 fun hw => h.ne (hm w (List.contains_iff_mem.1 hw)) rfl

/-- A word that starts a type is not `void`. -/
theorem StartsType.ne_void (h : StartsType w) : w ≠ "void" := by
  rcases h with h | ⟨-, h⟩
  · exact Identifier.ne ⟨w, h⟩ (by decide)
  · exact h

/-- A token that a type may consist of. -/
def IsTypeToken (t : Token) : Prop :=
  (∃ w, t = .word w) ∨
    t ∈ [Token.mark '.', .mark '?', .mark '<', .mark '>', .mark ',', .mark '[', .mark ']']

/-- A token of a type is none of the other marks. -/
theorem IsTypeToken.ne {c : Char} (h : IsTypeToken t)
    (hc : c ∉ ['.', '?', '<', '>', ',', '[', ']']) : t ≠ .mark c := by
  rintro rfl
  rcases h with ⟨w, h⟩ | h
  · cases h
  · simp only [List.mem_cons, Token.mark.injEq, List.not_mem_nil] at h hc
    exact hc h

/-- A token of a type is no ellipsis. -/
theorem IsTypeToken.ne_ellipsis (h : IsTypeToken t) : t ≠ .ellipsis := by
  rintro rfl
  rcases h with ⟨w, h⟩ | h
  · cases h
  · revert h
    decide

/-- What holds of the words and marks of types holds of all tokens of a type. -/
theorem TypeExpr.forall_tokens
    (hword : ∀ w, isIdentifier w = true ∨ isPrimitive w = true → p (.word w))
    (hbound : ∀ w ∈ ["extends", "super"], p (.word w))
    (hmark : ∀ c ∈ ['.', '?', '<', '>', ',', '[', ']'], p (.mark c)) (type : TypeExpr) :
    ∀ t ∈ type.tokens, p t := by
  have happend : ∀ {ts us : List Token}, (∀ t ∈ ts, p t) → (∀ t ∈ us, p t) → ∀ t ∈ ts ++ us, p t :=
    fun ha hb t ht => (List.mem_append.1 ht).elim (ha t) (hb t)
  have hcons : ∀ {t ts}, p t → (∀ t ∈ ts, p t) → ∀ u ∈ t :: ts, p u := fun ht hts =>
    List.forall_mem_cons.2 ⟨ht, hts⟩
  have hnil : ∀ t ∈ ([] : List Token), p t := nofun
  have hc : TypeClosed (fun ts => ∀ t ∈ ts, p t) (fun ts => ∀ t ∈ ts, p t) := by
    refine ⟨hnil, happend, fun hw => hcons (hword _ hw) hnil, hcons (hmark '.' (by decide)) hnil,
      hcons (hmark '[' (by decide)) (hcons (hmark ']' (by decide)) hnil),
      fun ha => hcons (hmark '<' (by decide)) (happend ha (hcons (hmark '>' (by decide)) hnil)), ?_,
      hcons (hmark '?' (by decide)) hnil,
      fun ha hb => happend ha (hcons (hmark ',' (by decide)) hb)⟩
    intro a b ha
    cases b with
    | exact => exact ha
    | upper | lower => exact hcons (hmark '?' (by decide)) (hcons (hbound _ (by decide)) ha)
  exact type.tokens_closed hc

/-- A type consists of such tokens. -/
theorem TypeExpr.isTypeToken (type : TypeExpr) : ∀ t ∈ type.tokens, IsTypeToken t := by
  refine TypeExpr.forall_tokens (fun w _ => .inl ⟨w, rfl⟩) (fun w _ => .inl ⟨w, rfl⟩) ?_ type
  intro c hc
  refine .inr ?_
  revert c
  simp

/-- No word of a type is a modifier. -/
theorem TypeExpr.not_isModifier (type : TypeExpr) :
    ∀ t ∈ type.tokens, ∀ w, t = .word w → isModifier w = false := by
  have hp : ∀ w ∈ primitives ++ ["extends", "super"], isModifier w = false := by decide
  refine TypeExpr.forall_tokens ?_ ?_ (fun c _ => nofun) type
  · intro w hw v hv
    obtain rfl : w = v := Token.word.inj hv
    rcases hw with hw | hw
    · exact Identifier.not_isModifier ⟨w, hw⟩
    · exact hp w (List.mem_append_left _ (List.contains_iff_mem.1 hw))
  · intro w hw v hv
    obtain rfl : w = v := Token.word.inj hv
    exact hp w (List.mem_append_right _ hw)

/-- A dotted name has no other mark than the dot. -/
theorem DottedName.mark_not_mem (n : DottedName) {c : Char} (hc : c ≠ '.') :
    .mark c ∉ n.tokens := by
  intro hm
  rcases List.mem_cons.1 hm with hm | hm
  · cases hm
  · obtain ⟨i, -, hm⟩ := List.mem_flatMap.1 hm
    simp [hc] at hm

/-- A type starts with a word that starts nothing but types. -/
theorem TypeExpr.tokens_eq (type : TypeExpr) :
    ∃ w r, type.tokens = .word w :: r ∧ StartsType w ∧ ∀ t ∈ r, IsTypeToken t := by
  have hs : ∃ w r, type.tokens = .word w :: r ∧ StartsType w := by
    obtain ⟨name, args, dims⟩ := type
    cases name with
    | dotted n => exact ⟨n.first.text, _, rfl, .inl n.first.valid⟩
    | primitive p =>
      have hp := p.valid
      rw [Bool.and_eq_true, bne_iff_ne] at hp
      exact ⟨p.word, _, rfl, .inr hp⟩
  obtain ⟨w, r, he, hw⟩ := hs
  refine ⟨w, r, he, hw, fun t ht => type.isTypeToken t ?_⟩
  rw [he]
  exact List.mem_cons_of_mem _ ht

/-! ## What holds of all headers -/

/-- Properties of token lists that a header has if its parts have them. -/
structure HeaderClosed (P : List Token → Prop) : Prop where
  nil : P []
  append {ts us : List Token} : P ts → P us → P (ts ++ us)
  word {w : String} : w ∈ keywords ++ ["non"] → P [.word w]
  name (i : Identifier) : P [.word i.text]
  mark {c : Char} : c ∈ ['.', '<', '>', ',', '&', '@', '-'] → P [.mark c]
  ellipsis : P [.ellipsis]
  type (t : TypeExpr) : P t.tokens
  parentheses {ts : List Token} : P ts → P (.mark '(' :: (ts ++ [.mark ')']))
  arguments (args : Arguments) : P (.mark '(' :: (args.tokens ++ [.mark ')']))

namespace HeaderClosed
variable {P : List Token → Prop} {c : Char}

/-- A property of headers goes over to one with a keyword more in front. -/
theorem cons_word (hc : HeaderClosed P) (h : P ts) (hw : w ∈ keywords ++ ["non"] := by decide) :
    P (.word w :: ts) :=
  hc.append (hc.word hw) h

/-- A property of headers goes over to one with a name more in front. -/
theorem cons_name (hc : HeaderClosed P) (i : Identifier) (h : P ts) : P (.word i.text :: ts) :=
  hc.append (hc.name i) h

/-- A property of headers goes over to one with a mark more in front. -/
theorem cons_mark (hc : HeaderClosed P) (h : P ts)
    (hm : c ∈ ['.', '<', '>', ',', '&', '@', '-'] := by decide) : P (.mark c :: ts) :=
  hc.append (hc.mark hm) h

/-- A property of headers goes over to lists of pieces that have it. -/
theorem flatMap {α : Type} {f : α → List Token} (hc : HeaderClosed P) (l : List α)
    (h : ∀ a ∈ l, P (f a)) : P (l.flatMap f) := by
  induction l with
  | nil => exact hc.nil
  | cons a l ih =>
    obtain ⟨ha, hl⟩ := List.forall_mem_cons.1 h
    exact hc.append ha (ih hl)

/-- A property of headers goes over to pieces with commas between them. -/
theorem separated {parts : List (List Token)} (hc : HeaderClosed P) (h : ∀ ts ∈ parts, P ts) :
    P (separated parts) := by
  cases parts with
  | nil => exact hc.nil
  | cons ts parts =>
    obtain ⟨ht, hp⟩ := List.forall_mem_cons.1 h
    exact hc.append ht (hc.flatMap parts fun us hu => hc.cons_mark (hp us hu))

/-- A property of headers holds of a dotted name. -/
theorem dottedName (hc : HeaderClosed P) (n : DottedName) : P n.tokens :=
  hc.cons_name n.first (hc.flatMap n.rest fun i _ => hc.cons_mark (hc.name i))

/-- A property of headers holds of a list of types. -/
theorem types (hc : HeaderClosed P) (types : List TypeExpr) :
    P (Java.separated (types.map TypeExpr.tokens)) := by
  refine hc.separated fun ts hts => ?_
  obtain ⟨type, -, rfl⟩ := List.mem_map.1 hts
  exact hc.type type

/-- A property of headers holds of modifiers. -/
theorem modifiers (hc : HeaderClosed P) (ms : List ModifierSyntax) : P (modifierTokens ms) := by
  refine hc.flatMap ms fun m _ => ?_
  cases m with
  | word w hw =>
    have hm : ∀ w ∈ Java.modifiers, w ∈ keywords ++ ["non"] := by decide
    exact hc.word (hm w (List.contains_iff_mem.1 hw))
  | nonSealed => exact hc.cons_word (hc.cons_mark (hc.word (by decide)))
  | annotation name args =>
    cases args with
    | none => exact hc.cons_mark (hc.dottedName name)
    | some args => exact hc.cons_mark (hc.append (hc.dottedName name) (hc.arguments args))

/-- A property of headers holds of type parameters. -/
theorem typeParameters (hc : HeaderClosed P) (ps : List TypeParameter) :
    P (typeParameterTokens ps) := by
  rw [typeParameterTokens]
  split
  · exact hc.nil
  · refine hc.cons_mark (hc.append (hc.separated fun ts hts => ?_) (hc.mark (by decide)))
    obtain ⟨p, -, rfl⟩ := List.mem_map.1 hts
    refine hc.cons_name p.name ?_
    cases p.bounds with
    | nil => exact hc.nil
    | cons type types =>
      exact hc.cons_word (hc.append (hc.type type)
        (hc.flatMap types fun u _ => hc.cons_mark (hc.type u)))

/-- A property of headers holds of parameters with commas between them. -/
theorem parameterList (hc : HeaderClosed P) (ps : List Parameter) :
    P (Java.separated (ps.map Parameter.tokens)) := by
  refine hc.separated fun ts hts => ?_
  obtain ⟨p, -, rfl⟩ := List.mem_map.1 hts
  refine hc.append (hc.modifiers p.modifiers)
    (hc.append (hc.type p.type) (hc.append ?_ (hc.name _)))
  split
  · exact hc.ellipsis
  · exact hc.nil

/-- A property of headers holds of parameters in their parentheses. -/
theorem parameters (hc : HeaderClosed P) (ps : List Parameter) : P (parameterTokens ps) :=
  hc.parentheses (hc.parameterList ps)

/-- What holds of the parts holds of the header of a type. -/
theorem typeHead (hc : HeaderClosed P) (h : TypeHead) : P h.tokens := by
  have hwords : P h.kind.words := by
    cases h.kind with
    | annotationType => exact hc.cons_mark (hc.word (by decide))
    | _ => exact hc.word (by decide)
  have hcomponents : P h.kind.componentTokens := by
    cases h.kind with
    | recordType ps => exact hc.parameters ps
    | _ => exact hc.nil
  have hclauses : P (h.clauses.flatMap Clause.tokens) := by
    refine hc.flatMap _ fun c _ => hc.cons_word (hc.types c.types) ?_
    cases c.kind <;> decide
  exact hc.append (hc.modifiers _) (hc.append hwords (hc.cons_name h.name
    (hc.append (hc.typeParameters _) (hc.append hcomponents hclauses))))

/-- What holds of the parts holds of the header of a method. -/
theorem methodHead (hc : HeaderClosed P) (h : MethodHead) : P h.tokens := by
  have hresult : P h.result.tokens := by
    cases h.result with
    | constructor => exact hc.nil
    | void => exact hc.word (by decide)
    | type type => exact hc.type type
  have hthrows : P (throwsTokens h.throws) := by
    rw [throwsTokens]
    split
    · exact hc.nil
    · exact hc.cons_word (hc.types h.throws)
  exact hc.append (hc.modifiers _) (hc.append (hc.typeParameters _)
    (hc.append hresult (hc.cons_name h.name (hc.append (hc.parameters _) hthrows))))

end HeaderClosed

/-! ## Nesting -/

/-- The brackets of a type are nested. -/
theorem wellNested_typeTokens (type : TypeExpr) : WellNested InHeader type.tokens := by
  refine wellNested_type ?_ type
  rintro t (⟨w, rfl⟩ | ht)
  · exact ⟨nofun, nofun⟩
  · have hm : ∀ t ∈ [Token.mark '.', .mark '?', .mark '<', .mark '>', .mark ',', .mark '['],
        t ≠ .mark ';' ∧ t ≠ .mark '{' := by decide
    exact hm t ht

/-- Headers are nested, and outside of their brackets neither a brace nor a semicolon stands. -/
theorem headerClosed_wellNested : HeaderClosed (WellNested InHeader) where
  nil := .nil
  append := .append
  word _ := .token rfl ⟨nofun, nofun⟩ .nil
  name _ := .token rfl ⟨nofun, nofun⟩ .nil
  mark := by
    intro c hc
    have hm : ∀ c ∈ ['.', '<', '>', ',', '&', '@', '-'],
        (Token.mark c).isBracket = false ∧ Token.mark c ≠ .mark ';' ∧ Token.mark c ≠ .mark '{' := by
      simp [Token.isBracket]
    obtain ⟨hb, hp⟩ := hm c hc
    exact .token hb hp .nil
  ellipsis := .token rfl ⟨nofun, nofun⟩ .nil
  type := wellNested_typeTokens
  parentheses h := .group .parentheses ⟨nofun, nofun⟩ (h.imp fun _ _ => trivial) .nil
  arguments args := .group .parentheses ⟨nofun, nofun⟩ args.nested .nil

end

end TestImpact.Java
