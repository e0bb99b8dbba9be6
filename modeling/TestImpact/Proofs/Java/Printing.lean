import TestImpact.Proofs.Java.Headers

/-!
# The text of a unit

Main statement: the text of a unit is read as the tokens of the unit (`tokens_print`), since each of
them can be written as it is.
-/

namespace TestImpact.Java

/-- All tokens of the list can be written as they are. -/
def Written (ts : List Token) : Prop := ∀ t ∈ ts, t.isLexeme = true

section
variable {t : Token} {ts us : List Token} {c : Char} {w : String}

/-! ## How lists are put together -/

/-- The empty list can be written. -/
theorem Written.nil : Written [] := nofun

/-- A token that can be written may come first. -/
theorem Written.cons (ht : t.isLexeme = true) (h : Written ts) : Written (t :: ts) :=
  List.forall_mem_cons.2 ⟨ht, h⟩

/-- Two lists one after another can be written. -/
theorem Written.append (ht : Written ts) (hu : Written us) : Written (ts ++ us) := by
  intro t hm
  exact (List.mem_append.1 hm).elim (ht t) (hu t)

/-- A mark that can be written may come first. -/
theorem Written.mark (h : Written ts) (hc : (Token.mark c).isLexeme = true := by decide) :
    Written (.mark c :: ts) :=
  .cons hc h

/-- An identifier can be written as a word. -/
theorem isLexeme_identifier (i : Identifier) : (Token.word i.text).isLexeme = true := by
  obtain ⟨c, r, he, hc⟩ := i.exists_cons
  have hp : ∀ d ∈ c :: r, isWordPart d = true := fun d hd => (Identifier.isWordPart (he ▸ hd)).1
  simp only [Token.isLexeme, he, List.head?_cons, Option.any_some, hc, Bool.true_and,
    List.all_eq_true]
  exact hp

/-- A type can be written. -/
theorem written_type (type : TypeExpr) : Written type.tokens := by
  have hm : ∀ c ∈ ['.', '?', '<', '>', ',', '[', ']'], (Token.mark c).isLexeme = true :=
    List.all_eq_true.1 (by decide)
  have hb : ∀ w ∈ ["extends", "super"], (Token.word w).isLexeme = true := by decide
  refine TypeExpr.forall_tokens (fun w hw => ?_) hb hm type
  rcases hw with hw | hw
  · exact isLexeme_identifier ⟨w, hw⟩
  · have hp : ∀ w ∈ primitives, (Token.word w).isLexeme = true := by decide
    exact hp w (List.contains_iff_mem.1 hw)

/-- Headers can be written. -/
theorem headerClosed_written : HeaderClosed Written where
  nil := .nil
  append := .append
  word := by
    intro w hw
    have hk : ∀ w ∈ keywords ++ ["non"], (Token.word w).isLexeme = true := by decide
    exact .cons (hk w hw) .nil
  name i := .cons (isLexeme_identifier i) .nil
  mark := by
    intro c hc
    have hm : ∀ c ∈ ['.', '<', '>', ',', '&', '@', '-'], (Token.mark c).isLexeme = true :=
      List.all_eq_true.1 (by decide)
    exact .mark .nil (hm c hc)
  ellipsis := .cons rfl .nil
  type := written_type
  parentheses h := .mark (h.append (.mark .nil))
  arguments args := by
    have ha : Written args.tokens := args.lexemes
    exact .mark (ha.append (.mark .nil))

/-! ## Declarations -/

/-- A block can be written. -/
theorem written_braced (b : Block) : Written b.braced := by
  have hb : Written b.tokens := b.lexemes
  exact .mark (hb.append (.mark .nil))

/-- The constants of an enum can be written. -/
theorem written_constants (kind : KindSyntax) (members : List Token) :
    Written (kind.constantTokens members) := by
  cases kind with
  | enumType constants closed =>
    have hc : Written constants.tokens := constants.lexemes
    refine hc.append ?_
    split
    · exact .mark .nil
    · exact .nil
  | _ => exact .nil

mutual

/-- A declared type can be written. -/
theorem TypeSyntax.written : ∀ t : TypeSyntax, Written t.tokens
  | .mk head ms => by
    have hms := membersTokens_written ms
    rw [TypeSyntax.tokens]
    exact (headerClosed_written.typeHead head).append (.mark ((written_constants head.kind _).append
      (hms.append (.mark .nil))))

/-- A member can be written. -/
theorem MemberSyntax.written : ∀ m : MemberSyntax, Written m.tokens
  | .field mods type name value => by
    have hv : Written (valueTokens value) := by
      cases value with
      | none => exact .nil
      | some v =>
        have hv : Written v.tokens := v.lexemes
        exact .mark hv
    rw [MemberSyntax.tokens]
    exact (headerClosed_written.modifiers mods).append ((written_type type).append
      (headerClosed_written.cons_name name (hv.append (.mark .nil))))
  | .method head body => by
    rw [MemberSyntax.tokens]
    refine (headerClosed_written.methodHead head).append ?_
    cases body with
    | none => exact .mark .nil
    | some b => exact written_braced b
  | .initializer mods body => by
    rw [MemberSyntax.tokens]
    exact (headerClosed_written.modifiers mods).append (written_braced body)
  | .type t => by
    rw [MemberSyntax.tokens]
    exact t.written

/-- The members of a type can be written. -/
theorem membersTokens_written : ∀ ms : List MemberSyntax, Written (membersTokens ms)
  | [] => by
    rw [membersTokens]
    exact .nil
  | m :: ms => by
    rw [membersTokens]
    exact m.written.append (membersTokens_written ms)

end

/-- An import can be written. -/
theorem ImportSyntax.written (i : ImportSyntax) : Written i.tokens := by
  have hname : Written i.nameTokens := by
    cases i with
    | single name => exact headerClosed_written.dottedName name
    | onDemand owner | staticOnDemand owner =>
      exact (headerClosed_written.dottedName owner).append (.mark (.mark .nil))
    | staticSingle owner member =>
      exact (headerClosed_written.dottedName owner).append
        (.mark (headerClosed_written.name member))
  have hwords : Written (importWords i.isStatic) := by
    cases i.isStatic with
    | true => exact headerClosed_written.cons_word (headerClosed_written.word (by decide))
    | false => exact headerClosed_written.word (by decide)
  exact hwords.append (hname.append (.mark .nil))

/-- A compilation unit can be written. -/
theorem CompilationUnit.written (u : CompilationUnit) : Written u.tokens := by
  have hpackage : Written (packageTokens u.package) := by
    cases u.package with
    | none => exact .nil
    | some name =>
      exact headerClosed_written.cons_word
        ((headerClosed_written.dottedName name).append (.mark .nil))
  exact hpackage.append ((headerClosed_written.flatMap _ fun i _ => i.written).append
    (headerClosed_written.flatMap _ fun t _ => t.written))

/-- The text of a unit is read as its tokens. -/
theorem tokens_print (u : CompilationUnit) : tokens u.print.toList = .ok u.tokens := by
  rw [CompilationUnit.print, String.toList_ofList]
  exact tokens_spell u.written

end

end TestImpact.Java
