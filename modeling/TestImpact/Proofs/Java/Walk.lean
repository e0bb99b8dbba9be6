import TestImpact.Proofs.Java.Roles

/-!
# Walking over members

`members` walks over the tokens of a source and keeps those since the last member in a segment. Main
statements: nested tokens go into the segment as they are (`walk_wellNested`), if their braces stand
in parentheses, among the constants of an enum, or in the value of a field; and what is found in
members that are written one after another is what they declare (`walk_membersTokens`).
-/

namespace TestImpact.Java

section
variable {outer : List String} {nest : Nat} {constants : Bool} {segment ts rest : List Token}
  {t : Token} {o c : Char} {p : Token → Prop}

/-! ## The equations of the walk -/

/-- Behind the last token of a source that is closed, nothing more is found. -/
theorem walk_nil : walk [] 0 constants segment [] = .ok [] := by
  rw [walk]
  rfl

/-- A token that is no bracket and no semicolon that counts goes into the segment. -/
theorem walk_token (ht : t.isBracket = false) (hs : t = .mark ';' → nest ≠ 0) :
    walk outer nest constants segment (t :: ts) = walk outer nest constants (t :: segment) ts := by
  rw [walk.eq_def]
  dsimp only
  split
  all_goals first | (exact absurd ht (by decide)) | skip
  · exact if_pos (hs rfl)
  · rfl

/-- An opening parenthesis goes into the segment, one level deeper. -/
theorem walk_parenthesis :
    walk outer nest constants segment (.mark '(' :: ts) =
      walk outer (nest + 1) constants (.mark '(' :: segment) ts := by
  rw [walk]

/-- So does an opening bracket. -/
theorem walk_bracket :
    walk outer nest constants segment (.mark '[' :: ts) =
      walk outer (nest + 1) constants (.mark '[' :: segment) ts := by
  rw [walk]

/-- A closing parenthesis goes into the segment, one level higher. -/
theorem walk_closeParenthesis :
    walk outer (nest + 1) constants segment (.mark ')' :: ts) =
      walk outer nest constants (.mark ')' :: segment) ts := by
  rw [walk]

/-- So does a closing bracket. -/
theorem walk_closeBracket :
    walk outer (nest + 1) constants segment (.mark ']' :: ts) =
      walk outer nest constants (.mark ']' :: segment) ts := by
  rw [walk]

/-- A semicolon completes the segment's member. -/
theorem walk_semicolon :
    walk outer 0 false segment (.mark ';' :: ts) =
      (walk outer 0 false [] ts).map ((statementMember? segment.reverse).toList ++ ·) := by
  rw [walk]
  rfl

/-- The first semicolon of an enum ends its constants. -/
theorem walk_endConstants :
    walk outer 0 true segment (.mark ';' :: ts) = walk outer 0 false [] ts := by
  rw [walk]
  rfl

/-- A closing brace ends the type at hand. -/
theorem walk_closeBrace {name : String} :
    walk (name :: outer) 0 constants segment (.mark '}' :: ts) = walk outer 0 false [] ts := by
  rw [walk]
  rfl

/-- An opening brace behind a type's header starts its body. -/
theorem walk_body {kind : DeclKind} {name : String} {header : List Token}
    (h : blockRole segment.reverse = .body kind name header) :
    walk outer 0 false segment (.mark '{' :: ts) =
      (walk ((readHeader (outer.headD "") kind name header).1.qualified :: outer) 0
        (kind = .enumType) [] ts).map
          (.type (readHeader (outer.headD "") kind name header).1
            (readHeader (outer.headD "") kind name header).2 :: ·) := by
  rw [walk]
  simp [h]

/-- Any other block is skipped as a whole. -/
theorem walk_block {role : BlockRole} {inside : List Token}
    (h : (if nest ≠ 0 ∨ constants then .value else blockRole segment.reverse) = role)
    (hr : ∀ kind name header, role ≠ .body kind name header)
    (hs : splitClose '{' '}' 0 ts = some (inside, rest)) :
    walk outer nest constants segment (.mark '{' :: ts) =
      (walk outer nest constants (skipBlock segment inside role).2 rest).map
        ((skipBlock segment inside role).1.toList ++ ·) := by
  rw [walk, h]
  split
  · exact absurd rfl (hr _ _ _)
  · split
    · next hn => rw [hs] at hn; cases hn
    · next hn => rw [hs] at hn; cases hn; rfl

/-- A skipped block has to be closed. -/
theorem walk_unclosed {role : BlockRole}
    (h : (if nest ≠ 0 ∨ constants then .value else blockRole segment.reverse) = role)
    (hr : ∀ kind name header, role ≠ .body kind name header)
    (hs : splitClose '{' '}' 0 ts = none) :
    walk outer nest constants segment (.mark '{' :: ts) = .error .unclosedBlock := by
  rw [walk, h]
  split
  · exact absurd rfl (hr _ _ _)
  · split
    · rfl
    · next hn => rw [hs] at hn; cases hn

/-- Behind a segment outside of all brackets its own role counts. -/
theorem walk_memberBlock {role : BlockRole} {inside : List Token}
    (h : blockRole segment.reverse = role) (hr : ∀ kind name header, role ≠ .body kind name header)
    (hs : splitClose '{' '}' 0 ts = some (inside, rest)) :
    walk outer 0 false segment (.mark '{' :: ts) =
      (walk outer 0 false (skipBlock segment inside role).2 rest).map
        ((skipBlock segment inside role).1.toList ++ ·) :=
  walk_block (by simpa using h) hr hs

/-! ## Nested tokens -/

/-- Wherever a segment goes on, a block behind it is a part of a value. -/
def HoldsValue (segment : List Token) : Prop :=
  ∀ more, blockRole (segment.reverse ++ more) = .value

/-- A segment that holds a value holds it with one token more. -/
theorem HoldsValue.cons (h : HoldsValue segment) : HoldsValue (t :: segment) := by
  intro more
  rw [List.reverse_cons, List.append_assoc]
  exact h _

/-- A segment that holds a value holds it with further tokens. -/
theorem HoldsValue.append (h : HoldsValue segment) (ts : List Token) :
    HoldsValue (ts ++ segment) := by
  induction ts with
  | nil => exact h
  | cons t ts ih => exact ih.cons

/-- A block that is a part of a value goes into the segment. -/
theorem walk_valueBlock {inside : List Token}
    (h : (if nest ≠ 0 ∨ constants then .value else blockRole segment.reverse) = .value)
    (hi : WellNested (fun _ => True) inside) :
    walk outer nest constants segment (.mark '{' :: (inside ++ .mark '}' :: rest)) =
      walk outer nest constants (.mark '}' :: (inside.reverse ++ .mark '{' :: segment)) rest := by
  rw [walk_block h nofun (splitClose_append (by decide) (hi.depth .braces 0))]
  exact map_nil_append _

/-- Nested tokens go into the segment as they are. Outside of parentheses and brackets there must be
no semicolon, and braces only among the constants of an enum or in a value. -/
theorem walk_wellNested (hn : WellNested p ts) (hs : nest = 0 → ∀ t, p t → t ≠ .mark ';')
    (hb : nest = 0 → constants = false → (∀ t, p t → t ≠ .mark '{') ∨ HoldsValue segment) :
    walk outer nest constants segment (ts ++ rest) =
      walk outer nest constants (ts.reverse ++ segment) rest := by
  induction hn generalizing nest segment rest with
  | nil => rfl
  | @token p t ts ht hp _ ih =>
    rw [List.cons_append, walk_token ht fun he h => hs h t hp he,
      ih hs fun h hc => (hb h hc).imp_right HoldsValue.cons, List.reverse_cons, List.append_assoc]
    rfl
  | @group p o c inside ts hoc hp hi _ ihi ih =>
    have hnext : ∀ front, walk outer nest constants (front ++ segment) (ts ++ rest) =
        walk outer nest constants (ts.reverse ++ (front ++ segment)) rest := fun front =>
      ih hs fun h hc => (hb h hc).imp_right (HoldsValue.append · front)
    have he : (.mark o :: (inside ++ .mark c :: ts)).reverse ++ segment =
        ts.reverse ++ ((.mark c :: (inside.reverse ++ [.mark o])) ++ segment) := by simp
    have hl : .mark o :: (inside ++ .mark c :: ts) ++ rest =
        .mark o :: (inside ++ .mark c :: (ts ++ rest)) := by simp
    have hin : ∀ seg us, walk outer (nest + 1) constants seg (inside ++ us) =
        walk outer (nest + 1) constants (inside.reverse ++ seg) us := fun _ _ =>
      ihi (fun h => absurd h (Nat.succ_ne_zero _)) fun h => absurd h (Nat.succ_ne_zero _)
    rw [he, hl, ← hnext]
    cases hoc with
    | parentheses =>
      rw [walk_parenthesis, hin, walk_closeParenthesis]
      simp
    | brackets =>
      rw [walk_bracket, hin, walk_closeBracket]
      simp
    | braces =>
      have hv : (if nest ≠ 0 ∨ constants then .value else blockRole segment.reverse) = .value := by
        split
        · rfl
        · next h =>
          obtain ⟨h₀, hc⟩ : nest = 0 ∧ constants = false := by simpa using h
          rcases hb h₀ hc with h | h
          · exact absurd rfl (h _ hp)
          · simpa using h []
      rw [walk_valueBlock hv hi]
      simp

/-- A header goes into an empty segment. -/
theorem walk_header (hn : WellNested InHeader ts) :
    walk outer 0 false [] (ts ++ rest) = walk outer 0 false ts.reverse rest := by
  have hw : walk outer 0 false [] (ts ++ rest) = walk outer 0 false (ts.reverse ++ []) rest :=
    walk_wellNested hn (fun _ _ ht => ht.1) fun _ _ => .inl fun _ ht => ht.2
  rwa [List.append_nil] at hw

/-! ## Members -/

/-- What is read of a parameter list. -/
def readParameters (ps : List Parameter) : List String :=
  parameterTypes (separated (ps.map Parameter.tokens))

/-- What is read of the clauses of a header. -/
def readSupertypes (h : TypeHead) : List String := supertypes (h.clauses.flatMap Clause.tokens)

/-- The brackets in front of a field's value are nested. -/
theorem wellNested_field (mods : List ModifierSyntax) (type : TypeExpr) (name : Identifier) :
    WellNested InHeader (fieldTokens mods type name []) :=
  (headerClosed_wellNested.modifiers mods).append
    ((wellNested_typeTokens type).append (headerClosed_wellNested.name name))

/-- A field, with its value, goes into the segment. -/
theorem walk_fieldTokens (mods : List ModifierSyntax) (type : TypeExpr) (name : Identifier)
    (value : Option Value) :
    walk outer 0 false [] (fieldTokens mods type name (valueTokens value) ++ rest) =
      walk outer 0 false (fieldTokens mods type name (valueTokens value)).reverse rest := by
  cases value with
  | none => exact walk_header (wellNested_field mods type name)
  | some v =>
    have he : fieldTokens mods type name (valueTokens (some v)) =
        fieldTokens mods type name [] ++ .mark '=' :: v.tokens := by
      simp [fieldTokens, valueTokens]
    have hv : HoldsValue (.mark '=' :: (fieldTokens mods type name []).reverse) := by
      intro more
      have hr : (.mark '=' :: (fieldTokens mods type name []).reverse).reverse ++ more =
          fieldTokens mods type name (.mark '=' :: more) := by
        simp [fieldTokens]
      rw [hr, blockRole_value]
    rw [he, List.append_assoc, walk_header (wellNested_field mods type name), List.cons_append,
      walk_token (t := .mark '=') rfl (by simp),
      walk_wellNested v.nested (fun _ _ ht => ht) fun _ _ => .inr hv]
    simp

/-- What is found in a field. -/
theorem walk_field (mods : List ModifierSyntax) (type : TypeExpr) (name : Identifier)
    (value : Option Value) :
    walk outer 0 false [] ((MemberSyntax.field mods type name value).tokens ++ rest) =
      (walk outer 0 false [] rest).map ([.field type.raw] ++ ·) := by
  have he : (MemberSyntax.field mods type name value).tokens ++ rest =
      fieldTokens mods type name (valueTokens value) ++ .mark ';' :: rest := by
    simp [MemberSyntax.tokens, fieldTokens]
  rw [he, walk_fieldTokens, walk_semicolon, List.reverse_reverse, statementMember?_field]
  rfl

/-- What is found in a method. -/
theorem walk_method (head : MethodHead) (body : Option Block) :
    walk outer 0 false [] ((MemberSyntax.method head body).tokens ++ rest) =
      (walk outer 0 false [] rest).map
        ([.method head.result.raw? (readParameters head.parameters)] ++ ·) := by
  rw [MemberSyntax.tokens, List.append_assoc, walk_header (headerClosed_wellNested.methodHead head)]
  cases body with
  | none =>
    rw [bodyTokens, List.singleton_append, walk_semicolon, List.reverse_reverse,
      statementMember?_methodHead]
    rfl
  | some b =>
    have he : bodyTokens (some b) ++ rest = .mark '{' :: (b.tokens ++ .mark '}' :: rest) := by
      simp [bodyTokens, Block.braced]
    have hr : blockRole head.tokens.reverse.reverse = .method := by
      rw [List.reverse_reverse, blockRole_methodHead]
    rw [he, walk_memberBlock hr (by simp) (splitClose_append (by decide) b.closed), skipBlock,
      List.reverse_reverse, head.dropModifiers, signature_afterModifiers]
    rfl

/-- Nothing is found in an initializer. -/
theorem walk_initializer (mods : List ModifierSyntax) (body : Block) :
    walk outer 0 false [] ((MemberSyntax.initializer mods body).tokens ++ rest) =
      walk outer 0 false [] rest := by
  have he : (MemberSyntax.initializer mods body).tokens ++ rest =
      modifierTokens mods ++ .mark '{' :: (body.tokens ++ .mark '}' :: rest) := by
    simp [MemberSyntax.tokens, Block.braced]
  have hr : blockRole (modifierTokens mods).reverse.reverse = .initializer := by
    rw [List.reverse_reverse, blockRole_modifiers]
  rw [he, walk_header (headerClosed_wellNested.modifiers mods),
    walk_memberBlock hr (by simp) (splitClose_append (by decide) body.closed)]
  exact map_nil_append _

/-- The constants of an enum are passed over. -/
theorem walk_constants (kind : KindSyntax) (name : String) (members : List Token) :
    walk (name :: outer) 0 (kind.kind = .enumType) []
      (kind.constantTokens members ++ (members ++ .mark '}' :: rest)) =
        walk (name :: outer) 0 false [] (members ++ .mark '}' :: rest) := by
  cases kind with
  | enumType constants closed =>
    rw [KindSyntax.constantTokens, List.append_assoc, walk_wellNested constants.nested
      (fun _ _ ht => ht) (fun _ h => by simp [KindSyntax.kind] at h)]
    split
    · exact walk_endConstants
    · next h =>
      obtain rfl : members = [] := by simp_all
      rw [List.nil_append, List.nil_append, walk_closeBrace, walk_closeBrace]
  | _ => rfl

/-- What is found of what is declared. -/
def found (ds : List Declared) : List Member :=
  ds.map (Declared.member readSupertypes readParameters)

/-- What is found in a type, given what is found in its members. -/
theorem walk_type {head : TypeHead} {ms : List MemberSyntax}
    (hms : ∀ outer rest, walk outer 0 false [] (membersTokens ms ++ rest) =
      (walk outer 0 false [] rest).map (found (membersDeclared (outer.headD "") ms) ++ ·)) :
    walk outer 0 false [] ((TypeSyntax.mk head ms).tokens ++ rest) =
      (walk outer 0 false [] rest).map
        (found ((TypeSyntax.mk head ms).declared (outer.headD "")) ++ ·) := by
  have he : (TypeSyntax.mk head ms).tokens ++ rest = head.tokens ++ .mark '{' ::
      (head.kind.constantTokens (membersTokens ms) ++ (membersTokens ms ++ .mark '}' :: rest)) := by
    simp [TypeSyntax.tokens]
  have hr : blockRole head.tokens.reverse.reverse =
      .body head.kind.kind head.name.text head.afterName := by
    rw [List.reverse_reverse, blockRole_typeHead]
  rw [he, walk_header (headerClosed_wellNested.typeHead head), walk_body hr, readHeader_afterName,
    walk_constants, hms, walk_closeBrace, TypeSyntax.declared]
  cases walk outer 0 false [] rest <;> rfl

end

mutual

/-- What is found in a type that is written out. -/
theorem walk_typeTokens : ∀ (t : TypeSyntax) (outer : List String) (rest : List Token),
    walk outer 0 false [] (t.tokens ++ rest) =
      (walk outer 0 false [] rest).map (found (t.declared (outer.headD "")) ++ ·)
  | .mk _ ms, _, _ => walk_type (walk_membersTokens ms)

/-- The walk through a member finds what it declares. -/
theorem walk_memberTokens : ∀ (m : MemberSyntax) (outer : List String) (rest : List Token),
    walk outer 0 false [] (m.tokens ++ rest) =
      (walk outer 0 false [] rest).map (found (m.declared (outer.headD "")) ++ ·)
  | .field mods type name value, _, _ => by
    rw [MemberSyntax.declared]
    exact walk_field mods type name value
  | .method head body, _, _ => by
    rw [MemberSyntax.declared]
    exact walk_method head body
  | .initializer mods body, _, _ => by
    rw [MemberSyntax.declared, walk_initializer]
    exact (map_nil_append _).symm
  | .type t, outer, rest => by
    rw [MemberSyntax.tokens, MemberSyntax.declared]
    exact walk_typeTokens t outer rest

/-- What is found in members that are written one after another. -/
theorem walk_membersTokens : ∀ (ms : List MemberSyntax) (outer : List String) (rest : List Token),
    walk outer 0 false [] (membersTokens ms ++ rest) =
      (walk outer 0 false [] rest).map (found (membersDeclared (outer.headD "") ms) ++ ·)
  | [], _, _ => by
    rw [membersTokens, membersDeclared]
    exact (map_nil_append _).symm
  | m :: ms, outer, rest => by
    rw [membersTokens, membersDeclared, List.append_assoc, walk_memberTokens m,
      walk_membersTokens ms, map_append_map, found, found, found, List.map_append]

end

end TestImpact.Java
