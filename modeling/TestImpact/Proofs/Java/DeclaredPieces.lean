import TestImpact.Proofs.Java.Braces
import TestImpact.Proofs.Java.CommaParts
import TestImpact.Proofs.Java.Steps
import TestImpact.Proofs.Text.Parts

/-!
# Where raw types come from

A raw type is the text of a piece of the source, found by dropping modifiers, brackets and names and
by cutting at commas. None of this cuts an annotation's name in two. Main statement: every raw type
that the members of a source are declared with is the text of a piece that stands behind no `@` and
no dot (`isTextIn_of_members`).
-/

namespace TestImpact.Java

/-- A token that a piece of a list may stand behind: no `@` and no dot. -/
def Cuts (t : Token) : Prop := t ≠ .mark '@' ∧ t ≠ .mark '.'

instance {t : Token} : Decidable (Cuts t) := inferInstanceAs (Decidable (_ ∧ _))

/-- The piece stands somewhere in the list, behind no `@` and no dot. -/
def IsPieceOf (piece ts : List Token) : Prop :=
  ∃ before after, ts = before ++ (piece ++ after) ∧ ∀ t ∈ before.getLast?, Cuts t

/-- The text is that of a piece of the list. -/
def IsTextIn (raw : String) (ts : List Token) : Prop :=
  ∃ piece, raw = joinTokens piece ∧ IsPieceOf piece ts

section
variable {piece part ts us before after header segment : List Token} {t u : Token} {c o : Char}
  {raw name : String} {kind : DeclKind}

/-! ## Pieces -/

/-- The start of a list is a piece of it. -/
theorem isPieceOf_start (h : piece <+: ts) : IsPieceOf piece ts := by
  obtain ⟨after, rfl⟩ := h
  exact ⟨[], after, rfl, nofun⟩

/-- The empty list is a piece of every list. -/
theorem isPieceOf_nil : IsPieceOf [] ts := isPieceOf_start List.nil_prefix

/-- A piece of a piece is a piece. -/
theorem IsPieceOf.trans (h : IsPieceOf piece part) (hp : IsPieceOf part ts) :
    IsPieceOf piece ts := by
  obtain ⟨before, after, rfl, hb⟩ := h
  obtain ⟨front, back, rfl, hf⟩ := hp
  exact ⟨front ++ before, after ++ back, by simp, forall_getLast?_append hf hb⟩

/-- Behind a token that cuts, what follows is a piece. -/
theorem isPieceOf_behind (hu : Cuts u) : IsPieceOf ts (before ++ u :: ts) := by
  refine ⟨before ++ [u], [], by simp, fun t ht => ?_⟩
  rw [List.getLast?_concat] at ht
  cases ht
  exact hu

/-- A piece of what stands behind a token that cuts is a piece of the whole list. -/
theorem IsPieceOf.behind (h : IsPieceOf piece ts) (hu : Cuts u) (before : List Token) :
    IsPieceOf piece (before ++ u :: ts) :=
  h.trans (isPieceOf_behind hu)

/-- The text of a piece of a piece is the text of a piece. -/
theorem IsTextIn.trans (h : IsTextIn raw part) (hp : IsPieceOf part ts) : IsTextIn raw ts := by
  obtain ⟨piece, hraw, hpiece⟩ := h
  exact ⟨piece, hraw, hpiece.trans hp⟩

/-! ## What modifiers and brackets leave -/

/-- What follows a closing bracket is a piece. -/
theorem isPieceOf_afterClose (hc : Cuts (.mark c)) : IsPieceOf (afterClose o c ts) ts := by
  rw [afterClose]
  split
  · next inside rest hs =>
    rw [append_of_splitClose hs]
    exact isPieceOf_behind hc
  · exact isPieceOf_nil

/-- What follows the segments of a dotted name is a piece. -/
theorem isPieceOf_afterSegments : IsPieceOf (afterSegments ts) ts := by
  fun_induction afterSegments ts with
  | case1 w r ih => exact ih.behind (u := .word w) (by simp [Cuts]) [.mark '.']
  | case2 => exact isPieceOf_start (List.prefix_refl _)

/-- What follows the name and the arguments of an annotation is a piece. -/
theorem isPieceOf_afterMarker : IsPieceOf (afterMarker ts) ts := by
  have hs : IsPieceOf (afterSegments ts) ts := isPieceOf_afterSegments
  rw [afterMarker]
  split
  · next r hr =>
    have harguments : IsPieceOf (afterClose '(' ')' r) r := isPieceOf_afterClose (by decide)
    rw [hr] at hs
    exact (harguments.behind (by decide) []).trans hs
  · exact hs

/-- What remains without annotations and modifiers is a piece. -/
theorem isPieceOf_dropModifiers : IsPieceOf (dropModifiers ts) ts := by
  fun_induction dropModifiers ts with
  | case2 name r _ _ ih =>
    exact (ih.trans isPieceOf_afterMarker).behind (u := .word name) (by simp [Cuts]) [.mark '@']
  | case3 w r hw ih =>
    have hr : r = [.mark '-'] ++ .word "sealed" :: r.drop 2 := by
      rw [← List.take_append_drop 2 r, hw.2]
      rfl
    rw [hr] at ih ⊢
    exact ih.behind (u := .word "sealed") (by decide) [.word w, .mark '-']
  | case4 w r _ _ ih => exact ih.behind (u := .word w) (by simp [Cuts]) []
  | _ => exact isPieceOf_start (List.prefix_refl _)

/-- What remains without a bracketed part in front is a piece. -/
theorem isPieceOf_dropBracketed (hc : Cuts (.mark c)) (ho : Cuts (.mark o)) :
    IsPieceOf (dropBracketed o c ts) ts := by
  cases ts with
  | nil => exact isPieceOf_nil
  | cons t ts =>
    rw [dropBracketed]
    split
    · next ht =>
      rw [ht]
      exact (isPieceOf_afterClose hc).behind ho []
    · exact isPieceOf_start (List.prefix_refl _)

/-- What stands up to the closing parenthesis is the start of the list. -/
theorem prefix_insideParentheses : insideParentheses ts <+: ts := by
  rw [insideParentheses]
  split
  · next hs =>
    rw [append_of_splitClose hs]
    exact List.prefix_append _ _
  · exact List.prefix_refl _

/-- The first part is what a list starts with, and all others stand behind commas. -/
theorem pieces_commaParts (d : Int) (ts : List Token) :
    ∃ first more, commaParts d ts = first :: more ∧ first <+: ts ∧
      ∀ part ∈ more, ∃ before after, ts = before ++ .mark ',' :: (part ++ after) := by
  induction ts generalizing d with
  | nil => exact ⟨[], [], rfl, List.prefix_refl _, nofun⟩
  | cons t ts ih =>
    by_cases hc : t = .mark ',' ∧ d = 0
    · obtain ⟨rfl, rfl⟩ := hc
      obtain ⟨first, more, he, ⟨after, hfirst⟩, hmore⟩ := ih 0
      refine ⟨[], first :: more, by rw [commaParts_comma, he], List.nil_prefix, ?_⟩
      refine List.forall_mem_cons.2 ⟨⟨[], after, by rw [hfirst]; rfl⟩, fun part hp => ?_⟩
      obtain ⟨before, after, hts⟩ := hmore part hp
      exact ⟨.mark ',' :: before, after, congrArg (_ :: ·) hts⟩
    · obtain ⟨first, more, he, hfirst, hmore⟩ := ih (d + level [t])
      refine ⟨t :: first, more, by rw [commaParts_cons hc, he], ?_, fun part hp => ?_⟩
      · exact List.cons_prefix_cons.2 ⟨rfl, hfirst⟩
      · obtain ⟨before, after, hts⟩ := hmore part hp
        exact ⟨t :: before, after, congrArg (t :: ·) hts⟩

/-- A part between commas is a piece. -/
theorem isPieceOf_of_mem_topLevelParts (h : part ∈ topLevelParts ts) : IsPieceOf part ts := by
  obtain ⟨first, more, he, hfirst, hmore⟩ := pieces_commaParts 0 ts
  have hm : part ∈ commaParts 0 ts := by
    rw [topLevelParts] at h
    split at h
    · exact List.dropLast_subset _ h
    · exact h
  rw [he] at hm
  rcases List.mem_cons.1 hm with rfl | hm
  · exact isPieceOf_start hfirst
  · obtain ⟨before, after, rfl⟩ := hmore part hm
    have hpart : IsPieceOf part (part ++ after) := isPieceOf_start (List.prefix_append _ _)
    exact hpart.behind (by decide) before

/-! ## Raw types -/

/-- The type in front of a name starts the list. -/
theorem prefix_of_typeBeforeName? (h : typeBeforeName? ts = some piece) : piece <+: ts := by
  have hgo : ∀ us : List Token, dropArrayMarks.go us <:+ us := by
    intro us
    fun_induction dropArrayMarks.go us with
    | case1 r ih => exact ih.trans ((List.suffix_cons ..).trans (List.suffix_cons ..))
    | case2 => exact List.suffix_refl _
  have hmarks : dropArrayMarks ts <+: ts := by
    have hr := List.reverse_prefix.2 (hgo ts.reverse)
    rwa [List.reverse_reverse] at hr
  rw [typeBeforeName?] at h
  split at h
  · next w type he =>
    cases h
    have hr := List.reverse_prefix.2 (List.suffix_cons (.word w) type)
    rw [← he, List.reverse_reverse] at hr
    exact hr.trans hmarks
  · cases h

/-- The text of a list's start is the text of a piece. -/
theorem isTextIn_start (h : piece <+: ts) : IsTextIn (joinTokens piece) ts :=
  ⟨piece, rfl, isPieceOf_start h⟩

/-- The raw type of a parameter is the text of a piece. -/
theorem isTextIn_of_parameterType? (h : parameterType? ts = some raw) : IsTextIn raw ts := by
  obtain ⟨type, ht, h⟩ := Option.bind_eq_some_iff.1 h
  have hstart : (if type.getLast? = some .ellipsis then type.dropLast else type) <+: type := by
    split
    · exact List.dropLast_prefix _
    · exact List.prefix_refl _
  dsimp only at h
  generalize (if type.getLast? = some .ellipsis then type.dropLast else type) = piece at h hstart
  split at h
  · cases h
  · cases h
    exact (isTextIn_start (hstart.trans (prefix_of_typeBeforeName? ht))).trans
      isPieceOf_dropModifiers

/-- The raw types of all parameters are texts of pieces. -/
theorem isTextIn_of_mem_parameterTypes (h : raw ∈ parameterTypes ts) : IsTextIn raw ts := by
  obtain ⟨part, hp, hraw⟩ := List.mem_filterMap.1 h
  exact (isTextIn_of_parameterType? hraw).trans (isPieceOf_of_mem_topLevelParts hp)

/-- The raw type of a field is the text of a piece. -/
theorem isTextIn_of_fieldType? (h : fieldType? ts = some raw) : IsTextIn raw ts := by
  obtain ⟨first, hf, h⟩ := Option.bind_eq_some_iff.1 h
  obtain ⟨type, ht, h⟩ := Option.bind_eq_some_iff.1 h
  have hraw : raw = joinTokens type := by
    split at h
    · cases h
    · split at h
      · cases h
      · exact (Option.some.inj h).symm
    · exact (Option.some.inj h).symm
  have hpiece : IsPieceOf first ts :=
    (isPieceOf_of_mem_topLevelParts (List.mem_of_mem_head? hf)).trans
      (isPieceOf_start (List.takeWhile_prefix _))
  rw [hraw]
  exact (isTextIn_start (prefix_of_typeBeforeName? ht)).trans hpiece

/-- The raw types of a method's result and parameters are texts of pieces. -/
theorem isTextIn_of_signature (h : raw ∈ (signature ts).1.toList ++ (signature ts).2) :
    IsTextIn raw ts := by
  have hts : IsPieceOf (dropBracketed '<' '>' ts) ts :=
    isPieceOf_dropBracketed (by decide) (by decide)
  refine IsTextIn.trans ?_ hts
  rw [signature] at h
  generalize dropBracketed '<' '>' ts = us at h
  dsimp only at h
  split at h
  · next w type t params hfront hback =>
    rcases List.mem_append.1 h with h | h
    · have hstart : type.reverse <+: us := by
        have hr := List.reverse_prefix.2 (List.suffix_cons (.word w) type)
        rw [← hfront, List.reverse_reverse] at hr
        exact hr.trans (List.takeWhile_prefix _)
      split at h
      · cases h
      · next first more he =>
        split at h
        · cases h
        · rw [← he] at h
          obtain rfl : raw = joinTokens type.reverse := by simpa using h
          exact isTextIn_start hstart
    · obtain rfl : t = .mark '(' := by
        have hn := List.head?_dropWhile_not (· ≠ Token.mark '(') us
        rw [hback] at hn
        simpa using hn
      have hus : us = us.takeWhile (· ≠ .mark '(') ++ .mark '(' :: params := by
        rw [← hback, List.takeWhile_append_dropWhile]
      have hparams : IsPieceOf params us := by
        rw [hus]
        exact isPieceOf_behind (by decide)
      exact (isTextIn_of_mem_parameterTypes h).trans
        ((isPieceOf_start prefix_insideParentheses).trans hparams)
  · cases h

/-- The lists of supertypes stand behind the words that start them. -/
theorem isTextIn_of_mem_supertypes (h : raw ∈ supertypes ts) :
    ∃ before u after, ts = before ++ u :: after ∧ Cuts u ∧ IsTextIn raw after := by
  fun_induction supertypes ts with
  | case1 => cases h
  | case2 t ts hs _ ih =>
    rcases List.mem_append.1 h with h | h
    · obtain ⟨hraw, -⟩ := List.mem_filter.1 h
      obtain ⟨part, hp, rfl⟩ := List.mem_map.1 hraw
      have ht : Cuts t := by
        simp only [startsSupertypes, Bool.or_eq_true, decide_eq_true_eq] at hs
        rcases hs with rfl | rfl <;> decide
      exact ⟨[], t, ts, rfl, ht, part, rfl, (isPieceOf_of_mem_topLevelParts hp).trans
        (isPieceOf_start (List.takeWhile_prefix _))⟩
    · obtain ⟨before, u, after, he, hu, hraw⟩ := ih h
      refine ⟨t :: (ts.takeWhile (fun t => !endsSupertypes t) ++ before), u, after, ?_, hu, hraw⟩
      rw [List.cons_append, List.append_assoc, ← he, List.takeWhile_append_dropWhile]
  | case3 t ts _ ih =>
    obtain ⟨before, u, after, rfl, hu, hraw⟩ := ih h
    exact ⟨t :: before, u, after, rfl, hu, hraw⟩

/-- The raw types of a type's header, components and supertypes, are texts of pieces. -/
theorem isTextIn_of_readHeader {outer : String}
    (h : raw ∈ (readHeader outer kind name header).2 ++
      (readHeader outer kind name header).1.supertypes) : IsTextIn raw header := by
  have hheader : IsPieceOf (dropBracketed '<' '>' header) header :=
    isPieceOf_dropBracketed (by decide) (by decide)
  refine IsTextIn.trans ?_ hheader
  simp only [readHeader] at h
  generalize dropBracketed '<' '>' header = ts at h
  rcases List.mem_append.1 h with h | h
  · rw [componentTypes.eq_def] at h
    split at h
    · next r _ =>
      have hinside : IsPieceOf (insideParentheses r) r :=
        isPieceOf_start prefix_insideParentheses
      exact (isTextIn_of_mem_parameterTypes h).trans (hinside.behind (by decide) [])
    · cases h
  · have hafter : IsPieceOf (afterComponents kind ts) ts := by
      rw [afterComponents]
      split
      · exact isPieceOf_dropBracketed (by decide) (by decide)
      · exact isPieceOf_start (List.prefix_refl _)
    obtain ⟨before, u, after, he, hu, hraw⟩ := isTextIn_of_mem_supertypes h
    refine hraw.trans (IsPieceOf.trans ?_ hafter)
    rw [he]
    exact isPieceOf_behind hu

/-! ## The raw types of members -/

/-- Members are declared with the raw types that each of them is declared with. -/
theorem mem_declaredTypes_append {ms ns : List Member} :
    raw ∈ declaredTypes (ms ++ ns) ↔ raw ∈ declaredTypes ms ∨ raw ∈ declaredTypes ns := by
  simp only [declaredTypes, List.flatMap_append, List.filterMap_append, List.mem_append]
  grind

/-- The header of a declaration is a piece. -/
theorem isPieceOf_of_declaration? (h : declaration? ts = some (kind, name, header)) :
    IsPieceOf header ts := by
  have hword : ∀ w before, IsPieceOf header (before ++ .word w :: header) := fun w before =>
    isPieceOf_behind (by simp [Cuts])
  rw [declaration?.eq_def] at h
  split at h <;> cases h
  iterate 5 exact hword _ [.word _]
  exact hword _ [.mark '@', .word _]

/-- The header of a body is a piece of what stands in front of its block. -/
theorem isPieceOf_of_blockRole (h : blockRole ts = .body kind name header) :
    IsPieceOf header ts := by
  rw [blockRole] at h
  split at h
  · next hd =>
    cases h
    exact (isPieceOf_of_declaration? hd).trans isPieceOf_dropModifiers
  · split at h <;> cases h

/-- What a method is declared with stands in its segment. -/
theorem isTextIn_of_method
    (h : raw ∈ declaredTypes [.method (signature (dropModifiers ts)).1
      (signature (dropModifiers ts)).2]) : IsTextIn raw ts := by
  have hs : raw ∈ (signature (dropModifiers ts)).1.toList ++ (signature (dropModifiers ts)).2 := by
    rw [List.mem_append, or_comm]
    cases hr : (signature (dropModifiers ts)).1 <;>
      simpa [declaredTypes, Member.fieldTypes, Member.parameterTypes, Member.returnTypes,
        Member.decl?, hr] using h
  exact (isTextIn_of_signature hs).trans isPieceOf_dropModifiers

/-- The raw types of a member without a block are texts of pieces. -/
theorem isTextIn_of_statementMember? (h : raw ∈ declaredTypes (statementMember? ts).toList) :
    IsTextIn raw ts := by
  rw [statementMember?] at h
  split at h
  · cases h
  split at h
  · exact isTextIn_of_method h
  · obtain ⟨type, ht, rfl⟩ : ∃ type, fieldType? (dropModifiers ts) = some type ∧ raw = type := by
      cases hf : fieldType? (dropModifiers ts) with
      | none => rw [hf] at h; cases h
      | some type =>
        rw [hf] at h
        exact ⟨type, rfl, by simpa [declaredTypes, Member.fieldTypes, Member.parameterTypes,
          Member.returnTypes, Member.decl?] using h⟩
    exact (isTextIn_of_fieldType? ht).trans isPieceOf_dropModifiers

/-- The raw types of a member whose block is skipped are texts of pieces. -/
theorem isTextIn_of_skipBlock {inside : List Token} {role : BlockRole}
    (h : raw ∈ declaredTypes (skipBlock segment inside role).1.toList) :
    IsTextIn raw segment.reverse := by
  cases role with
  | method => exact isTextIn_of_method h
  | body | value | initializer => cases h

/-- What a type is declared with stands in front of its body. -/
theorem isTextIn_of_body {outer : String} (hb : blockRole ts = .body kind name header)
    (h : raw ∈ declaredTypes
      [.type (readHeader outer kind name header).1 (readHeader outer kind name header).2]) :
    IsTextIn raw ts := by
  have hs : raw ∈ (readHeader outer kind name header).2 ++
      (readHeader outer kind name header).1.supertypes := by
    simpa [declaredTypes, Member.fieldTypes, Member.parameterTypes, Member.returnTypes,
      Member.decl?] using h
  exact (isTextIn_of_readHeader hs).trans (isPieceOf_of_blockRole hb)

/-! ## The raw types of a source -/

variable {p q : Place} {found ms : List Member}

/-- What a step finds is declared in the segment at hand. -/
theorem Step.isTextIn (h : Step p piece found q) :
    ∀ raw ∈ declaredTypes found, IsTextIn raw p.segment.reverse := by
  intro raw hraw
  cases h with
  | token | brace | opens | closes | endConstants | endBody => cases hraw
  | statement => exact isTextIn_of_statementMember? hraw
  | body hb => exact isTextIn_of_body hb hraw
  | block => exact isTextIn_of_skipBlock hraw

/-- A segment ends at a token that cuts, or it goes on with what is read. -/
theorem Step.isPieceOf (h : Step p piece found q) (rest : List Token) :
    IsPieceOf (q.segment.reverse ++ rest) (p.segment.reverse ++ (piece ++ rest)) := by
  cases h with
  | token | brace | opens | closes =>
    refine isPieceOf_start ?_
    simp
  | endConstants | statement | endBody | body => exact isPieceOf_behind (by decide)
  | @block _ inside _ _ =>
    generalize p.blockRole = role
    cases role with
    | value =>
      refine isPieceOf_start ?_
      simp [skipBlock]
    | body | method | initializer =>
      have hclose : IsPieceOf rest
          ((p.segment.reverse ++ .mark '{' :: inside) ++ .mark '}' :: rest) :=
        isPieceOf_behind (by decide)
      simpa [skipBlock] using hclose

/-- What a run finds is declared in the segment at hand, together with what is read. -/
theorem Run.isTextIn (h : Run p ts found q) :
    ∀ raw ∈ declaredTypes found, IsTextIn raw (p.segment.reverse ++ ts) := by
  induction h with
  | refl => exact List.forall_mem_nil _
  | step hs _ ih =>
    intro raw hraw
    rcases mem_declaredTypes_append.1 hraw with hraw | hraw
    · exact (hs.isTextIn raw hraw).trans (isPieceOf_start (List.prefix_append _ _))
    · exact (ih raw hraw).trans (hs.isPieceOf _)

/-- Every raw type that the members of a source are declared with is the text of a piece of it. -/
theorem isTextIn_of_members (h : members ts = .ok ms) :
    ∀ raw ∈ declaredTypes ms, IsTextIn raw ts := by
  obtain ⟨q, hrun, -, -⟩ := exists_run_of_walk (p := .start) h
  exact hrun.isTextIn

end

end TestImpact.Java
