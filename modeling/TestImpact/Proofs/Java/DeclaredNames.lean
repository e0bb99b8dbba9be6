import TestImpact.Proofs.Java.Braces
import TestImpact.Proofs.Java.Fronts

/-!
# The names of declared types

The walk over the members of a source opens and closes the bodies of types like a stack. Main
statements: the declarations of a source that is read are those of a stack of open bodies, each of
them named inside the innermost one that is open (`opened_of_read`); every declared name is a word
of the source, so it is not empty and has no dot (`isSegment_of_read`); and a declaration is one of
its own or stands inside another one, whose name goes in front of its own (`isInside_of_read`).
-/

namespace TestImpact

/-- The text is one segment of a qualified name. -/
structure IsSegment (s : String) : Prop where
  ne_empty : s ≠ ""
  no_dot : '.' ∉ s.toList

namespace Java

section
variable {c : Char} {r rest cs : List Char} {t : Token} {ts header : List Token} {w name : String}
  {kind : DeclKind}

/-! ## Words -/

/-- The token of a literal is the literal. -/
theorem eq_literal_of_literalBefore {fault : Malformed} {after : Option (List Char)}
    (h : literalBefore fault after = .ok (some t, rest)) : t = .literal := by
  cases after with
  | none => cases h
  | some r => cases h; rfl

/-- What is read can be written as it is. -/
theorem isLexeme_of_step (h : step c r = .ok (some t, rest)) : t.isLexeme = true := by
  rw [step] at h
  split at h
  · cases h
  next hspace =>
  split at h
  · cases h
  split at h
  · split at h <;> cases h
  split at h
  · rw [eq_literal_of_literalBefore h]
    rfl
  split at h
  · rw [eq_literal_of_literalBefore h]
    rfl
  next hquote =>
  split at h
  · rw [eq_literal_of_literalBefore h]
    rfl
  next hsingle =>
  split at h
  · cases h
    rfl
  next hdigit =>
  split at h
  · next hstart =>
    cases h
    have hall : (r.takeWhile isWordPart).all isWordPart = true := List.all_takeWhile
    simp [Token.isLexeme, hstart, isWordPart_of_isWordStart hstart, hall]
  next hstart =>
  split at h
  · cases h
    rfl
  split at h
  · cases h
    rfl
  · cases h
    simp [Token.isLexeme, hspace, hquote, hsingle, hdigit, hstart]

/-- The tokens of a text can be written as they are. -/
theorem isLexeme_of_tokens (h : tokens cs = .ok ts) : ∀ t ∈ ts, t.isLexeme = true := by
  induction hn : cs.length using Nat.strongRecOn generalizing cs ts with
  | ind n ih =>
    cases cs with
    | nil =>
      rw [tokens] at h
      cases h
      exact List.forall_mem_nil _
    | cons c r =>
      cases hs : step c r with
      | error e =>
        rw [tokens_error hs] at h
        cases h
      | ok found =>
        obtain ⟨o, rest⟩ := found
        rw [tokens_cons hs] at h
        obtain ⟨more, hrest, rfl⟩ := eq_ok_of_map h
        have hlt : rest.length < n := hn ▸ Nat.lt_succ_of_le (length_step hs)
        rw [List.forall_mem_append]
        refine ⟨fun t ht => ?_, ih _ hlt hrest rfl⟩
        rw [Option.mem_toList] at ht
        subst ht
        exact isLexeme_of_step hs

/-- A word that can be written is a segment of a name. -/
theorem isSegment_of_isLexeme (h : (Token.word w).isLexeme = true) : IsSegment w := by
  rw [Token.isLexeme, Bool.and_eq_true, List.all_eq_true] at h
  refine ⟨?_, fun hm => ?_⟩
  · rintro rfl
    exact absurd h.1 (by decide)
  · exact absurd (h.2 _ hm) (by decide)

/-- The name of a body is a word in front of it. -/
theorem word_mem_of_blockRole (h : blockRole ts = .body kind name header) : .word name ∈ ts := by
  rw [blockRole] at h
  split at h
  · next hd =>
    cases h
    refine (dropModifiers_suffix ts).subset ?_
    rw [declaration?.eq_def] at hd
    split at hd <;> cases hd <;> simp_all
  · split at h <;> cases h

end

/-! ## The stack of open bodies -/

/-- The types are declared one after the other in bodies that are opened and closed like a stack.
`outer` holds the names of the types whose bodies are open at first, `around` of those at last, the
innermost one first. A type is named inside the innermost of them. -/
inductive Opened : List String → List TypeDecl → List String → Prop
  | nil {outer : List String} : Opened outer [] outer
  | close {name : String} {outer around : List String} {ds : List TypeDecl} :
    Opened outer ds around → Opened (name :: outer) ds around
  | cons {d : TypeDecl} {outer around : List String} {ds : List TypeDecl} :
    d.qualified = qualify (outer.headD "") d.name → Opened (d.qualified :: outer) ds around →
    Opened outer (d :: ds) around

/-- The type stands inside the type `o`. -/
def TypeDecl.IsInside (d o : TypeDecl) : Prop := d.qualified = o.qualified ++ "." ++ d.name

instance {d o : TypeDecl} : Decidable (d.IsInside o) := inferInstanceAs (Decidable (_ = _))

section
variable {p q : Place} {piece ts : List Token} {found : List Member} {outer around : List String}
  {ds : List TypeDecl} {d : TypeDecl}

/-- What a semicolon completes is no type. -/
theorem decl?_statementMember? (segment : List Token) :
    (statementMember? segment).toList.filterMap Member.decl? = [] := by
  rw [statementMember?]
  split
  · rfl
  split
  · rfl
  · cases fieldType? (dropModifiers segment) <;> rfl

/-- What a skipped block completes is no type. -/
theorem decl?_skipBlock (segment inside : List Token) (role : BlockRole) :
    (skipBlock segment inside role).1.toList.filterMap Member.decl? = [] := by
  cases role <;> rfl

/-- What a skipped block leaves of the segment comes from the segment and the block. -/
theorem skipBlock_subset (segment inside : List Token) (role : BlockRole) :
    (skipBlock segment inside role).2 ⊆ .mark '{' :: (inside ++ [.mark '}']) ++ segment := by
  cases role with
  | value =>
    intro t ht
    simp only [skipBlock, List.mem_cons, List.mem_append, List.mem_reverse] at ht
    rcases ht with rfl | ht | rfl | ht
    · simp
    · simp [ht]
    · simp
    · simp [ht]
  | _ => exact List.nil_subset _

/-- A step opens the body of a type, closes one, or leaves the bodies as they are. -/
theorem Step.opened (h : Step p piece found q) (hmore : Opened q.outer ds around) :
    Opened p.outer (found.filterMap Member.decl? ++ ds) around := by
  cases h with
  | token | brace | opens | closes | endConstants => exact hmore
  | statement =>
    rw [decl?_statementMember?]
    exact hmore
  | endBody => exact .close hmore
  | body => exact .cons rfl hmore
  | block =>
    rw [decl?_skipBlock]
    exact hmore

/-- The types that a run finds are those of the bodies that it opens. -/
theorem Run.opened (h : Run p ts found q) :
    Opened p.outer (found.filterMap Member.decl?) q.outer := by
  induction h with
  | refl => exact .nil
  | step hs _ ih =>
    rw [List.filterMap_append]
    exact hs.opened ih

/-- A type that a step finds has its name in the segment at hand, and the segment grows only by what
is read. -/
theorem Step.word_mem (h : Step p piece found q) :
    (∀ d ∈ found.filterMap Member.decl?, .word d.name ∈ p.segment) ∧
      q.segment ⊆ piece ++ p.segment := by
  cases h with
  | token | brace | opens | closes => exact ⟨List.forall_mem_nil _, List.Subset.refl _⟩
  | endConstants | endBody => exact ⟨List.forall_mem_nil _, List.nil_subset _⟩
  | statement =>
    rw [decl?_statementMember?]
    exact ⟨List.forall_mem_nil _, List.nil_subset _⟩
  | body hb =>
    exact ⟨List.forall_mem_singleton.2 (List.mem_reverse.1 (word_mem_of_blockRole hb)),
      List.nil_subset _⟩
  | block =>
    rw [decl?_skipBlock]
    exact ⟨List.forall_mem_nil _, skipBlock_subset _ _ _⟩

/-- A type that a run finds has its name in the segment at hand or in what is read. -/
theorem Run.word_mem (h : Run p ts found q) :
    ∀ d ∈ found.filterMap Member.decl?, .word d.name ∈ ts ++ p.segment := by
  induction h with
  | refl => exact List.forall_mem_nil _
  | step hs _ ih =>
    obtain ⟨hfound, hsegment⟩ := hs.word_mem
    intro d hd
    rw [List.filterMap_append] at hd
    rcases List.mem_append.1 hd with hd | hd
    · exact List.mem_append_right _ (hfound d hd)
    · rw [List.append_assoc]
      rcases List.mem_append.1 (ih d hd) with hmem | hmem
      · exact List.mem_append_right _ (List.mem_append_left _ hmem)
      · exact (List.mem_append.1 (hsegment hmem)).elim (List.mem_append_left _)
          fun h => List.mem_append_right _ (List.mem_append_right _ h)

/-! ## The declarations of a source -/

variable {text : String} {path : Path} {fqn : String} {kind : SourceKind} {r : ClassRecord}

/-- The declarations of a source are found by a run over tokens of it. -/
theorem exists_run_of_read (hr : ClassRecord.read text path fqn kind = .ok r) :
    ∃ ts front body found q, tokens text.toList = .ok ts ∧ ts = front ++ body ∧
      Run .start body found q ∧ q.outer = [] ∧ r.declarations = found.filterMap Member.decl? := by
  rw [ClassRecord.read] at hr
  split at hr
  · cases hr
  · next hp =>
    cases hr
    obtain ⟨ts, ht, hp⟩ := eq_ok_of_bind hp
    obtain ⟨⟨h, body⟩, hh, hp⟩ := eq_ok_of_bind hp
    obtain ⟨ms, hm, hp⟩ := eq_ok_of_bind hp
    cases hp
    obtain ⟨-, front, hfront, -⟩ := exists_front_of_headerFrom hh
    obtain ⟨q, hrun, hout, -⟩ := exists_run_of_walk (p := .start) hm
    exact ⟨ts, front, _, _, q, ht, hfront, hrun, hout, rfl⟩

/-- The declarations of a source are those of a stack of bodies that are all closed at the end. -/
theorem opened_of_read (hr : ClassRecord.read text path fqn kind = .ok r) :
    Opened [] r.declarations [] := by
  obtain ⟨ts, front, body, found, q, -, -, hrun, hout, hd⟩ := exists_run_of_read hr
  have hopened := hrun.opened
  rw [hout, ← hd] at hopened
  exact hopened

/-- The name of a declared type is a word of the source. -/
theorem word_mem_of_read (hr : ClassRecord.read text path fqn kind = .ok r) :
    ∃ ts, tokens text.toList = .ok ts ∧ ∀ d ∈ r.declarations, .word d.name ∈ ts := by
  obtain ⟨ts, front, body, found, q, ht, rfl, hrun, -, hd⟩ := exists_run_of_read hr
  refine ⟨_, ht, hd ▸ fun d hm => ?_⟩
  have hword : .word d.name ∈ body ++ Place.start.segment := hrun.word_mem d hm
  rw [Place.start, List.append_nil] at hword
  exact List.mem_append_right _ hword

/-- So it is not empty and has no dot. -/
theorem isSegment_of_read (hr : ClassRecord.read text path fqn kind = .ok r) :
    ∀ d ∈ r.declarations, IsSegment d.name := by
  obtain ⟨ts, ht, hword⟩ := word_mem_of_read hr
  exact fun d hd => isSegment_of_isLexeme (isLexeme_of_tokens ht _ (hword d hd))

/-- A type is named after nothing, after a type whose body is open at first, or after another one of
the types. -/
theorem Opened.cases_qualified (h : Opened outer ds around) (hd : d ∈ ds) :
    d.qualified = d.name ∨ (∃ o ∈ outer, d.qualified = qualify o d.name) ∨
      ∃ o ∈ ds, d.qualified = qualify o.qualified d.name := by
  induction h with
  | nil => cases hd
  | close _ ih =>
    exact (ih hd).imp id (Or.imp (fun ⟨o, ho, he⟩ => ⟨o, List.mem_cons_of_mem _ ho, he⟩) id)
  | @cons first outer around ds hq _ ih =>
    rcases List.mem_cons.1 hd with rfl | hd
    · cases outer with
      | nil => exact .inl hq
      | cons o outer => exact .inr (.inl ⟨o, List.mem_cons_self, hq⟩)
    rcases ih hd with he | ⟨o, ho, he⟩ | ⟨o, ho, he⟩
    · exact .inl he
    · rcases List.mem_cons.1 ho with rfl | ho
      · exact .inr (.inr ⟨first, List.mem_cons_self, he⟩)
      · exact .inr (.inl ⟨o, ho, he⟩)
    · exact .inr (.inr ⟨o, List.mem_cons_of_mem _ ho, he⟩)

/-- A qualified name is not empty if the name is not. -/
theorem qualify_ne_empty {outer name : String} (hn : name ≠ "") : qualify outer name ≠ "" := by
  rw [qualify]
  split
  · exact hn
  · simp [hn]

/-- A declared type is one of its own, or it stands inside another one. -/
theorem isInside_of_read (hr : ClassRecord.read text path fqn kind = .ok r)
    (hd : d ∈ r.declarations) : d.qualified = d.name ∨ ∃ o ∈ r.declarations, d.IsInside o := by
  have hopened := opened_of_read hr
  have hne : ∀ o ∈ r.declarations, o.qualified ≠ "" := by
    intro o ho
    have hname := (isSegment_of_read hr o ho).ne_empty
    rcases hopened.cases_qualified ho with he | ⟨_, _, he⟩ | ⟨_, _, he⟩
    · rwa [he]
    · rw [he]
      exact qualify_ne_empty hname
    · rw [he]
      exact qualify_ne_empty hname
  refine (hopened.cases_qualified hd).imp id fun h => ?_
  obtain ⟨o, ho, he⟩ := h.resolve_left fun ⟨_, ho, _⟩ => by cases ho
  refine ⟨o, ho, he.trans ?_⟩
  rw [qualify, if_neg (by simpa [String.isEmpty_iff] using hne o ho)]

/-- Qualifying a nested name qualifies the type around it. -/
theorem qualify_append {package outer name : String} : qualify package (outer ++ "." ++ name) =
    qualify package outer ++ "." ++ name := by
  rw [qualify, qualify]
  split
  · rfl
  · simp only [String.append_assoc]

/-- The name of a nested type goes on from that of the type around it. -/
theorem TypeDecl.IsInside.declaredName {o : TypeDecl} (h : d.IsInside o) :
    r.declaredName d = r.declaredName o ++ "." ++ d.name := by
  rw [ClassRecord.declaredName, h, qualify_append]
  rfl

end

end Java

end TestImpact
