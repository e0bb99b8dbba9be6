import TestImpact.Proofs.Java.AngleBrackets
import TestImpact.Proofs.Java.Walk

/-!
# Parameters read back

A list of parameters is cut at its commas outside of brackets, of which angle brackets are a kind.
An annotation may hold a comparison, and then the list may be cut in a wrong place. Main statement:
parameters are read as they are written exactly if they can be told apart by the commas between them
(`readParameters_eq_iff`); this is so if the annotations close the angle brackets that they open
(`separable_parameters`). What is read of a part that starts or ends in a wrong place is the text of
no type (`misread_merged`, `misread_cut`).
-/

namespace TestImpact.Java

/-- The arguments of an annotation balance their angle brackets as well, so that no comma in them
separates parameters. -/
def ModifierSyntax.IsLevel : ModifierSyntax → Prop
  | annotation _ (some args) => commaCount.depth 1 args.tokens = some 1
  | _ => True

/-- The annotations of the parameter balance their angle brackets. -/
def Parameter.IsLevel (p : Parameter) : Prop := ∀ m ∈ p.modifiers, m.IsLevel

/-- A part of a parameter list of which the text of no type is read. -/
def Misread (part : List Token) : Prop :=
  ∃ s, parameterType? part = some s ∧ ¬TypeLike 0 s.toList

/-- The list of `p` and `ps`, with `d` open brackets in front of it, is cut as it is written, or one
of its parts is misread. Its first part need not start here and is not counted, but may go on with
a further parameter. -/
def CutOrMisread (d : Int) (p : Parameter) (ps : List Parameter) : Prop :=
  ∃ first others, commaParts d (separated ((p :: ps).map Parameter.tokens)) = first :: others ∧
    ((∃ part ∈ others, Misread part) ∨
      (∃ ts x, first = p.tokens ++ .mark ',' :: (ts ++ [.word x])) ∨
      Separable d ((p :: ps).map Parameter.tokens))

section
variable {p : Parameter} {ps : List Parameter} {ts front back more rest : List Token} {t : Token}
  {x : String} {d : Nat}

/-! ## Annotations that close their angle brackets -/

/-- A dotted name changes nothing of the level of commas. -/
theorem depth_dottedName (n : DottedName) : commaCount.depth d n.tokens = some d := by
  obtain ⟨first, rest⟩ := n
  show commaCount.depth d (rest.flatMap _) = some d
  induction rest with
  | nil => rfl
  | cons i rest ih => exact ih

/-- No comma in an annotation separates parameters. -/
theorem depth_modifier {m : ModifierSyntax} (h : m.IsLevel) :
    commaCount.depth 0 m.tokens = some 0 := by
  cases m with
  | word | nonSealed => rfl
  | annotation name args =>
    cases args with
    | none => exact depth_dottedName name
    | some args =>
      show commaCount.depth 0 (name.tokens ++ .mark '(' :: (args.tokens ++ [.mark ')'])) = some 0
      rw [BracketCount.depth_append_of (depth_dottedName name),
        BracketCount.depth_cons_of (e := 1) rfl, BracketCount.depth_append_of h]
      rfl

/-- A level parameter hides its commas and closes its brackets. -/
theorem depth_parameter (h : p.IsLevel) : commaCount.depth 0 p.tokens = some 0 := by
  have hm : ∀ ms : List ModifierSyntax, (∀ m ∈ ms, m.IsLevel) →
      commaCount.depth 0 (modifierTokens ms) = some 0 := by
    intro ms
    induction ms with
    | nil => exact fun _ => rfl
    | cons m ms ih =>
      intro hms
      obtain ⟨hm, hms⟩ := List.forall_mem_cons.1 hms
      exact (BracketCount.depth_append_of (depth_modifier hm)).trans (ih hms)
  rw [Parameter.tokens, BracketCount.depth_append_of (hm _ h),
    BracketCount.depth_append_of (BracketCount.depth_type fitsTypes_comma p.type 0)]
  cases p.varargs <;> rfl

/-- Parameters can be told apart if their annotations close the angle brackets that they open. -/
theorem separable_parameters (h : ∀ p ∈ ps, p.IsLevel) :
    Separable 0 (ps.map Parameter.tokens) := by
  refine separable_of_depth fun ts hts => ?_
  obtain ⟨p, hp, rfl⟩ := List.mem_map.1 hts
  exact depth_parameter (h p hp)

/-- Parameters that can be told apart are read as they are written. -/
theorem readParameters_of_separable (h : Separable 0 (ps.map Parameter.tokens)) :
    readParameters ps = rawTypes ps := by
  have hp : topLevelParts (separated (ps.map Parameter.tokens)) = ps.map Parameter.tokens := by
    refine topLevelParts_separated (fun ts hts => ?_) h
    obtain ⟨p, -, rfl⟩ := List.mem_map.1 hts
    simp [Parameter.tokens]
  rw [readParameters, parameterTypes, hp, List.filterMap_map, rawTypes, ← List.filterMap_eq_map]
  exact congrArg (List.filterMap · ps) (funext parameterType?_tokens)

/-! ## Parts that are misread -/

/-- A part is misread if its text is unlike a type up to some place. -/
theorem misread_of {us : List Token} (hd : dropModifiers rest = ts ++ (us ++ [.word x]))
    (hn : ts ≠ []) (hl : ts.getLast? ≠ some .ellipsis) (ht : ¬TypeLike 0 (charsOf ts)) :
    Misread rest := by
  refine ⟨_, parameterType?_eq hd hn hl, fun h => ht ?_⟩
  rw [toList_joinTokens, charsOf_append] at h
  exact (typeLike_append.1 h).1

/-- A parameter ends in its name. -/
theorem Parameter.exists_append_name (p : Parameter) :
    ∃ ts, p.tokens = ts ++ [.word p.name.text] := by
  obtain ⟨dots, -, he, -⟩ := p.exists_dots
  exact ⟨modifierTokens p.modifiers ++ (p.type.tokens ++ dots), by rw [he]; simp⟩

/-- A parameter that goes on with a further one is misread: a comma stands behind its name, outside
of angle brackets. -/
theorem misread_merged (p : Parameter) :
    Misread (p.tokens ++ .mark ',' :: (more ++ [.word x])) := by
  obtain ⟨dots, hdots, -, hd⟩ := p.exists_dots
  have he : dropModifiers (p.tokens ++ .mark ',' :: (more ++ [.word x])) =
      (p.type.tokens ++ (dots ++ [.word p.name.text, .mark ','])) ++ (more ++ [.word x]) := by
    rw [hd]
    simp
  refine misread_of he (by simp) (by simp) fun h => ?_
  rw [charsOf_append, typeLike_append, p.type.typeLike.1] at h
  have hdot : ∀ c ∈ ['.', '.', '.'], c ∉ ['<', '>', ',', ')'] := by simp
  have hw : TypeLike 0 (charsOf [.word p.name.text, .mark ',']) := by
    rcases hdots with rfl | rfl
    · exact h.2
    · exact (typeLike_skip hdot).2.1 h.2
  have hm := (typeLike_word (.inl (.inl p.name.valid))).2.1 hw
  rw [charsOf_mark] at hm
  exact absurd (hm.2.1 (.inr rfl)) (by decide)

/-- Where a list of two parts is cut. -/
theorem append_eq_append_cons {α : Type} {xs ys as bs : List α} {a : α}
    (h : xs ++ ys = as ++ a :: bs) :
    (∃ mid, xs = as ++ a :: mid ∧ bs = mid ++ ys) ∨
      ∃ mid, as = xs ++ mid ∧ ys = mid ++ a :: bs := by
  rcases List.append_eq_append_iff.1 h with ⟨mid, rfl, hr⟩ | ⟨mid, rfl, hr⟩
  · exact .inr ⟨mid, rfl, hr⟩
  · cases mid with
    | nil => exact .inr ⟨[], by simp, hr.symm⟩
    | cons b mid =>
      obtain ⟨rfl, rfl⟩ := List.cons.inj hr
      exact .inl ⟨mid, rfl, rfl⟩

/-- A comma in a modifier stands in the arguments of an annotation. -/
theorem comma_in_modifier {m : ModifierSyntax} (h : m.tokens = front ++ .mark ',' :: back) :
    ∃ inside rest d, back = inside ++ .mark ')' :: rest ∧
      (pairCount '(' ')').depth d inside = some 0 := by
  have hm : .mark ',' ∈ m.tokens := by
    rw [h]
    simp
  cases m with
  | word | nonSealed => simp [ModifierSyntax.tokens] at hm
  | annotation name args =>
    have hname := name.mark_not_mem (c := ',') (by decide)
    cases args with
    | none => simp [ModifierSyntax.tokens, hname] at hm
    | some args =>
      have he : (.mark '@' :: (name.tokens ++ [.mark '('])) ++ (args.tokens ++ [.mark ')']) =
          front ++ .mark ',' :: back := by
        rw [← h]
        simp [ModifierSyntax.tokens]
      rcases append_eq_append_cons he with ⟨mid, hc, -⟩ | ⟨mid, -, hc⟩
      · have hn : .mark ',' ∈ .mark '@' :: (name.tokens ++ [.mark '(']) := by
          rw [hc]
          simp
        simp [hname] at hn
      rcases append_eq_append_cons hc with ⟨inside, hi, hb⟩ | ⟨mid', -, hc⟩
      · have hd := args.nested.depth .parentheses 0
        rw [hi] at hd
        obtain ⟨d, -, hd⟩ := Option.bind_eq_some_iff.1 (BracketCount.depth_append.symm.trans hd)
        exact ⟨inside, [], d, hb, hd⟩
      · have hn : .mark ',' ∈ [Token.mark ')'] := by
          rw [hc]
          simp
        simp at hn

/-- A comma of modifiers stands between parentheses that are closed behind it. -/
theorem comma_in_modifiers {ms : List ModifierSyntax}
    (h : modifierTokens ms = front ++ .mark ',' :: back) :
    ∃ inside rest d, back = inside ++ .mark ')' :: rest ∧
      (pairCount '(' ')').depth d inside = some 0 := by
  induction ms generalizing front with
  | nil => simp [modifierTokens] at h
  | cons m ms ih =>
    have h : m.tokens ++ modifierTokens ms = front ++ .mark ',' :: back := h
    rcases append_eq_append_cons h with ⟨mid, hm, rfl⟩ | ⟨mid, -, hm⟩
    · obtain ⟨inside, rest, d, rfl, hd⟩ := comma_in_modifier hm
      exact ⟨inside, rest ++ modifierTokens ms, d, by simp, hd⟩
    · exact ih hm

/-- What follows a comma in the arguments of a type closes a bracket that it does not open. -/
theorem comma_in_type {type : TypeExpr} (h : type.tokens = front ++ .mark ',' :: back) :
    excess (charsOf back) < 0 := by
  obtain ⟨hz, hl⟩ := type.typeLike
  have hl := hl 0 (Int.le_refl 0)
  rw [h, charsOf_append, typeLike_append, charsOf_mark] at hl
  rw [h, charsOf_append, charsOf_mark, excess_append, excess_cons] at hz
  have h1 : 1 ≤ 0 + excess (charsOf front) := hl.2.2.1 (.inr rfl)
  have h0 : excess [','] = 0 := rfl
  omega

/-- The end of a type starts with no modifier. -/
theorem dropModifiers_type {type : TypeExpr} (hb : back ≠ []) (hs : ∀ t ∈ back, t ∈ type.tokens)
    (hm : more.head? ≠ some (.mark '-')) : dropModifiers (back ++ more) = back ++ more := by
  cases back with
  | nil => exact absurd rfl hb
  | cons t back =>
    obtain ⟨ht, hback⟩ := List.forall_mem_cons.1 hs
    cases t with
    | word w =>
      refine (Declares.word (type.not_isModifier _ ht w rfl) fun hh => ?_).dropModifiers
      cases back with
      | nil => exact hm hh
      | cons u back =>
        exact (type.isTypeToken u (hback u List.mem_cons_self)).ne (by decide) (Option.some.inj hh)
    | mark c =>
      have hc : c ≠ '@' := by
        intro hc
        exact (type.isTypeToken _ ht).ne (by decide) (congrArg Token.mark hc)
      rw [List.cons_append, dropModifiers]
      all_goals simp_all
    | ellipsis | doubleColon | literal =>
      rcases type.isTypeToken _ ht with ⟨w, hw⟩ | hw
      · cases hw
      · simp at hw

/-- A part that starts behind a comma of a parameter is misread. -/
theorem misread_cut (h : p.tokens = front ++ .mark ',' :: back)
    (hm : more = [] ∨ ∃ ts x, more = ts ++ [.word x]) : Misread (back ++ more) := by
  obtain ⟨dots, hdots, he, -⟩ := p.exists_dots
  -- Whatever follows the type ends in a name.
  obtain ⟨tail, x, hx⟩ : ∃ tail x, dots ++ .word p.name.text :: more = tail ++ [.word x] := by
    rcases hm with rfl | ⟨ts, x, rfl⟩
    · exact ⟨dots, _, rfl⟩
    · exact ⟨dots ++ .word p.name.text :: ts, x, by simp⟩
  rw [he] at h
  rcases append_eq_append_cons h with ⟨mid, hmods, rfl⟩ | ⟨mid, -, hrest⟩
  · -- Behind the comma a parenthesis closes that nothing opens.
    obtain ⟨inside, rest, d, rfl, hd⟩ := comma_in_modifiers hmods
    have hb : inside ++ .mark ')' :: rest ++
        (p.type.tokens ++ (dots ++ [.word p.name.text])) ++ more =
        inside ++ .mark ')' :: (rest ++ (p.type.tokens ++ tail) ++ [.word x]) := by
      simp only [List.append_assoc, List.cons_append, List.nil_append, hx]
    obtain ⟨kept, hk⟩ : ∃ kept, dropModifiers
        (inside ++ .mark ')' :: (rest ++ (p.type.tokens ++ tail) ++ [.word x])) =
          kept ++ .mark ')' :: (rest ++ (p.type.tokens ++ tail) ++ [.word x]) :=
      dropModifiers_append_close hd
    rw [hb]
    refine misread_of (hk.trans (List.append_cons _ _ _)) (by simp) (by simp) fun hl => ?_
    refine hl.not_mem ?_
    rw [charsOf_append, charsOf_mark]
    simp
  rcases append_eq_append_cons hrest with ⟨mid', htype, rfl⟩ | ⟨mid', -, hname⟩
  · -- Behind the comma an angle bracket closes that nothing opens.
    have hneg := comma_in_type htype
    have hne : mid' ≠ [] := by
      rintro rfl
      exact absurd hneg (by decide)
    have hmem : ∀ t ∈ mid', t ∈ p.type.tokens := by
      intro t ht
      rw [htype]
      exact List.mem_append_right _ (List.mem_cons_of_mem _ ht)
    have hhead : (tail ++ [Token.word x]).head? ≠ some (.mark '-') := by
      rw [← hx]
      rcases hdots with rfl | rfl <;> simp
    simp only [List.append_assoc, List.cons_append, List.nil_append, hx]
    refine misread_of (dropModifiers_type hne hmem hhead) hne (fun hl => ?_) fun hl => ?_
    · exact (p.type.isTypeToken _ (hmem _ (List.mem_of_getLast? hl))).ne_ellipsis rfl
    · have := hl.excess_nonneg (Int.le_refl 0)
      omega
  · have hc : .mark ',' ∈ dots ++ [.word p.name.text] := by
      rw [hname]
      simp
    rcases hdots with rfl | rfl <;> simp at hc

/-! ## Which lists are misread -/

/-- A single parameter is cut as it is written, or its first part is misread. -/
theorem cutOrMisread_nil {d : Int} : CutOrMisread d p [] := by
  by_cases hh : HidesCommas d p.tokens
  · exact ⟨_, [], commaParts_separated hh, .inr (.inr hh)⟩
  · obtain ⟨front, back, z, zs, hp, hcut⟩ := exists_commaParts_append hh
    exact ⟨z, _, hcut [] [] [] rfl, .inl ⟨back ++ [], by simp, misread_cut hp (.inl rfl)⟩⟩

/-- The comma in front of a list of parameters separates it, or goes into the first part. -/
theorem CutOrMisread.comma {e : Int} (h : CutOrMisread e p ps) :
    ∃ y ys, commaParts e (.mark ',' :: separated ((p :: ps).map Parameter.tokens)) = y :: ys ∧
      ((∃ part ∈ ys, Misread part) ∨ (∃ ts x, y = .mark ',' :: (ts ++ [.word x])) ∨
        y = [] ∧ e = 0 ∧ Separable 0 ((p :: ps).map Parameter.tokens)) := by
  obtain ⟨first, others, hcut, hor⟩ := h
  by_cases he : e = 0
  · subst he
    refine ⟨[], first :: others, by rw [commaParts_comma, hcut], ?_⟩
    rcases hor with ⟨part, hm, hmis⟩ | ⟨ts, x, rfl⟩ | hs
    · exact .inl ⟨part, List.mem_cons_of_mem _ hm, hmis⟩
    · exact .inl ⟨_, List.mem_cons_self, misread_merged p⟩
    · exact .inr (.inr ⟨rfl, rfl, hs⟩)
  · have h0 : e + level [.mark ','] = e := Int.add_zero _
    refine ⟨.mark ',' :: first, others, by rw [commaParts_cons (fun h => he h.2), h0, hcut], ?_⟩
    rcases hor with hmis | ⟨ts, x, rfl⟩ | hs
    · exact .inl hmis
    · exact .inr (.inl ⟨p.tokens ++ .mark ',' :: ts, x, by simp⟩)
    · obtain ⟨ts, hts⟩ := p.exists_append_name
      have hf : first :: others = (p :: ps).map Parameter.tokens := by
        rw [← hcut]
        exact commaParts_separated hs
      rw [(List.cons.inj hf).1, hts]
      exact .inr (.inl ⟨ts, _, rfl⟩)

/-- A list of parameters is cut as it is written, or one of its parts is misread. -/
theorem cutOrMisread (d : Int) (p : Parameter) (ps : List Parameter) : CutOrMisread d p ps := by
  induction ps generalizing d p with
  | nil => exact cutOrMisread_nil
  | cons q ps ih =>
    obtain ⟨y, ys, hy, hor⟩ := (ih (d + level p.tokens) q).comma
    by_cases hh : HidesCommas d p.tokens
    · refine ⟨p.tokens ++ y, ys, commaParts_append hh hy, ?_⟩
      rcases hor with hmis | ⟨ts, x, rfl⟩ | ⟨rfl, hl, hs⟩
      · exact .inl hmis
      · exact .inr (.inl ⟨ts, x, rfl⟩)
      · exact .inr (.inr ⟨hh, hl, hs⟩)
    · obtain ⟨front, back, z, zs, hp, hcut⟩ := exists_commaParts_append hh
      refine ⟨z, zs ++ (back ++ y) :: ys, hcut _ y ys hy, .inl ?_⟩
      rcases hor with ⟨part, hm, hmis⟩ | ⟨ts, x, rfl⟩ | ⟨rfl, -, -⟩
      · exact ⟨part, by simp [hm], hmis⟩
      · exact ⟨_, by simp, misread_cut hp (.inr ⟨.mark ',' :: ts, x, rfl⟩)⟩
      · exact ⟨_, by simp, misread_cut hp (.inl rfl)⟩

/-- A misread part is not dropped for being empty. -/
theorem Misread.mem_topLevelParts (h : Misread ts) (hm : ts ∈ commaParts 0 rest) :
    ts ∈ topLevelParts rest := by
  have hn : ts ≠ [] := by
    rintro rfl
    obtain ⟨s, hs, -⟩ := h
    rw [parameterType?, Declares.nil.dropModifiers] at hs
    cases hs
  rw [topLevelParts]
  split
  · next hl =>
    obtain ⟨parts, hp⟩ := List.getLast?_eq_some_iff.1 hl
    rw [hp] at hm ⊢
    rw [List.dropLast_concat]
    rcases List.mem_append.1 hm with hm | hm
    · exact hm
    · exact absurd (List.mem_singleton.1 hm) hn
  · exact hm

/-- Parameters of which only texts of types are read can be told apart. -/
theorem separable_of_typeLike (h : ∀ s ∈ readParameters ps, TypeLike 0 s.toList) :
    Separable 0 (ps.map Parameter.tokens) := by
  cases ps with
  | nil => trivial
  | cons p ps =>
    obtain ⟨first, others, hcut, hor⟩ := cutOrMisread 0 p ps
    have hfound : ∀ part ∈ first :: others, ¬Misread part := by
      intro part hm hmis
      rw [← hcut] at hm
      obtain ⟨s, hs, hn⟩ := id hmis
      exact hn (h s (List.mem_filterMap.2 ⟨part, hmis.mem_topLevelParts hm, hs⟩))
    rcases hor with ⟨part, hm, hmis⟩ | ⟨ts, x, rfl⟩ | hs
    · exact absurd hmis (hfound part (List.mem_cons_of_mem _ hm))
    · exact absurd (misread_merged p) (hfound _ List.mem_cons_self)
    · exact hs

/-- The texts of all parameter types are like types. -/
theorem typeLike_rawTypes : ∀ s ∈ rawTypes ps, TypeLike 0 s.toList := by
  intro s hs
  obtain ⟨p, -, rfl⟩ := List.mem_map.1 hs
  rw [TypeExpr.raw, toList_joinTokens]
  exact p.type.typeLike.2 0 (Int.le_refl 0)

/-- Parameters are read as they are written exactly if they can be told apart by the commas between
them. -/
theorem readParameters_eq_iff :
    readParameters ps = rawTypes ps ↔ Separable 0 (ps.map Parameter.tokens) := by
  refine ⟨fun h => separable_of_typeLike ?_, readParameters_of_separable⟩
  rw [h]
  exact typeLike_rawTypes

end

end TestImpact.Java
