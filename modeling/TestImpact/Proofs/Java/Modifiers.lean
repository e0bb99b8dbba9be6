import TestImpact.Proofs.Java.Syntax

/-!
# Words and modifiers in front of declarations

The readers tell declarations apart by the words they start with. Main statements: an identifier is
none of these words (`Identifier.ne`); `dropModifiers` drops exactly the modifiers that are written,
if what follows starts with none (`dropModifiers_modifierTokens`); and it never drops a parenthesis
that nothing opens (`dropModifiers_append_close`).
-/

namespace TestImpact.Java

/-- What a declaration starts with behind its modifiers: nothing, the bracket of type parameters, an
annotation type, or a word that is no modifier and no start of one. -/
inductive Declares : List Token → Prop
  | nil : Declares []
  | angle {r : List Token} : Declares (.mark '<' :: r)
  | annotationType {r : List Token} : Declares (.mark '@' :: .word "interface" :: r)
  | word {w : String} {r : List Token} :
    isModifier w = false → r.head? ≠ some (.mark '-') → Declares (.word w :: r)

/-- The list goes on with nothing that belongs to an annotation in front of it. -/
structure EndsMarker (ts : List Token) : Prop where
  not_dot : ts.head? ≠ some (.mark '.')
  not_parenthesis : ts.head? ≠ some (.mark '(')

section
variable {w : String} {ts rest : List Token}

/-- An identifier is not a keyword. -/
theorem Identifier.ne (i : Identifier) (h : isKeyword w = true) : i.text ≠ w := by
  rintro rfl
  rw [i.not_isKeyword] at h
  cases h

/-- An identifier is not a modifier. -/
theorem Identifier.not_isModifier (i : Identifier) : isModifier i.text = false := by
  have hm : ∀ w ∈ modifiers, isKeyword w = true := by decide
  refine Bool.eq_false_iff.2 fun h => ?_
  exact i.ne (hm _ (List.contains_iff_mem.1 h)) rfl

/-! ## Modifiers are dropped -/

/-- A declaration starts with nothing that belongs to an annotation. -/
theorem Declares.endsMarker (h : Declares ts) : EndsMarker ts := by
  cases h <;> exact ⟨by simp, by simp⟩

/-- An annotation is dropped with its name and its arguments. -/
theorem dropModifiers_marker (hn : w ≠ "interface") :
    dropModifiers (.mark '@' :: .word w :: ts) = dropModifiers (afterMarker ts) := by
  rw [dropModifiers, if_neg hn]

/-- The three tokens of `non-sealed` are dropped. -/
theorem dropModifiers_nonSealed :
    dropModifiers (.word "non" :: .mark '-' :: .word "sealed" :: ts) = dropModifiers ts := by
  rw [dropModifiers, if_pos ⟨rfl, rfl⟩]
  rfl

/-- A modifier is dropped. -/
theorem dropModifiers_modifier (hm : isModifier w = true) :
    dropModifiers (.word w :: ts) = dropModifiers ts := by
  have hn : w ≠ "non" := by
    rintro rfl
    revert hm
    decide
  rw [dropModifiers, if_neg (fun h => hn h.1), if_pos hm]

/-- A declaration without modifiers stays as it is. -/
theorem Declares.dropModifiers (h : Declares ts) : dropModifiers ts = ts := by
  cases h with
  | nil => rw [Java.dropModifiers]; all_goals simp
  | angle => rw [Java.dropModifiers]; all_goals simp
  | annotationType => rw [Java.dropModifiers, if_pos rfl]
  | @word w r hm hr =>
    have ht : ¬(w = "non" ∧ r.take 2 = [.mark '-', .word "sealed"]) := by
      rintro ⟨-, ht⟩
      cases r with
      | nil => cases ht
      | cons t r => exact hr (congrArg some (List.cons.inj ht).1)
    rw [Java.dropModifiers, if_neg ht, if_neg (by simp [hm])]

/-- All segments of a dotted name are passed over. -/
theorem afterSegments_eq (h : rest.head? ≠ some (.mark '.')) (is : List Identifier) :
    afterSegments ((is.flatMap fun i => [.mark '.', .word i.text]) ++ rest) = rest := by
  induction is with
  | nil =>
    rw [List.flatMap_nil, List.nil_append, afterSegments]
    rintro w r rfl
    exact h rfl
  | cons i is ih => exact ih

/-- Without a parenthesis, an annotation ends with its name. -/
theorem afterMarker_of_head?_ne (h : (afterSegments ts).head? ≠ some (.mark '(')) :
    afterMarker ts = afterSegments ts := by
  rw [afterMarker]
  split
  · next he => rw [he] at h; exact absurd rfl h
  · rfl

/-- With a parenthesis, an annotation ends with its arguments. -/
theorem afterMarker_of_eq_cons (h : afterSegments ts = .mark '(' :: rest) :
    afterMarker ts = afterClose '(' ')' rest := by
  rw [afterMarker, h]
  rfl

/-- An annotation is passed over. -/
theorem afterMarker_eq (h : EndsMarker rest) (is : List Identifier) :
    afterMarker ((is.flatMap fun i => [.mark '.', .word i.text]) ++ rest) = rest := by
  have hs := afterSegments_eq h.not_dot is
  rw [afterMarker_of_head?_ne (by rw [hs]; exact h.not_parenthesis), hs]

/-- An annotation is passed over with its arguments. -/
theorem afterMarker_arguments (is : List Identifier) (args : Arguments) :
    afterMarker ((is.flatMap fun i => [.mark '.', .word i.text]) ++
      .mark '(' :: (args.tokens ++ .mark ')' :: rest)) = rest := by
  rw [afterMarker_of_eq_cons (afterSegments_eq (by simp) is), afterClose,
    splitClose_append (by decide) (args.nested.depth .parentheses 0)]

/-- A modifier is dropped. -/
theorem dropModifiers_tokens (h : EndsMarker rest) (m : ModifierSyntax) :
    dropModifiers (m.tokens ++ rest) = dropModifiers rest := by
  cases m with
  | word w hw => exact dropModifiers_modifier hw
  | nonSealed => exact dropModifiers_nonSealed
  | annotation name args =>
    have hn : name.first.text ≠ "interface" := name.first.ne (by decide)
    cases args with
    | none =>
      show dropModifiers (.mark '@' :: .word name.first.text :: (_ ++ rest)) = _
      rw [dropModifiers_marker hn, afterMarker_eq h]
    | some args =>
      have he : (ModifierSyntax.annotation name (some args)).tokens ++ rest =
          .mark '@' :: .word name.first.text :: ((name.rest.flatMap fun i =>
            [.mark '.', .word i.text]) ++ .mark '(' :: (args.tokens ++ .mark ')' :: rest)) := by
        simp [ModifierSyntax.tokens, DottedName.tokens]
      rw [he, dropModifiers_marker hn, afterMarker_arguments]

/-- Modifiers start with nothing that belongs to an annotation in front of them. -/
theorem endsMarker_modifierTokens (h : EndsMarker rest) (ms : List ModifierSyntax) :
    EndsMarker (modifierTokens ms ++ rest) := by
  cases ms with
  | nil => exact h
  | cons m ms =>
    cases m with
    | word | nonSealed => exact ⟨nofun, nofun⟩
    | annotation name args => cases args <;> exact ⟨nofun, nofun⟩

/-- All modifiers in front of a declaration are dropped, and nothing else is. -/
theorem dropModifiers_modifierTokens (h : Declares rest) (ms : List ModifierSyntax) :
    dropModifiers (modifierTokens ms ++ rest) = rest := by
  induction ms with
  | nil => exact h.dropModifiers
  | cons m ms ih =>
    show dropModifiers (m.tokens ++ modifierTokens ms ++ rest) = rest
    rw [List.append_assoc, dropModifiers_tokens (endsMarker_modifierTokens h.endsMarker ms), ih]

/-! ## What is never dropped -/

/-- Every parenthesis that `front` closes has been opened in it. -/
def OpensFirst (front : List Token) : Prop := ∃ e, (pairCount '(' ')').depth 0 front = some e

/-- What opens first goes on with what opens first. -/
theorem OpensFirst.append (ht : OpensFirst ts) (hr : OpensFirst rest) :
    OpensFirst (ts ++ rest) := by
  obtain ⟨d, hd⟩ := ht
  obtain ⟨e, he⟩ := hr
  refine ⟨e + d, ?_⟩
  rw [BracketCount.depth_append_of hd]
  have := depth_pairCount_add he d
  rwa [Nat.zero_add] at this

/-- Any other token in front changes nothing. -/
theorem OpensFirst.cons {t : Token} (h : OpensFirst ts) (ho : t ≠ .mark '(' := by simp)
    (hc : t ≠ .mark ')' := by simp) : OpensFirst (t :: ts) := by
  obtain ⟨e, he⟩ := h
  exact ⟨e, (BracketCount.depth_cons_of (step_passes ho hc)).trans he⟩

/-- What a parenthesis takes along opens every parenthesis that it closes. -/
theorem exists_afterClose (ts : List Token) :
    ∃ front, ts = front ++ afterClose '(' ')' ts ∧ OpensFirst (.mark '(' :: front) := by
  rw [afterClose]
  split
  · next inside rest hs =>
    refine ⟨inside ++ [.mark ')'], ?_, 0, ?_⟩
    · rw [append_of_splitClose hs, List.append_assoc]
      rfl
    · have hd := depth_pairCount_add (depth_of_splitClose hs) 1
      rw [BracketCount.depth_cons_of step_opens, BracketCount.depth_append_of hd]
      rfl
  · next hs =>
    obtain ⟨e, he⟩ := exists_depth_of_splitClose hs
    refine ⟨ts, (List.append_nil ts).symm, e + 1, ?_⟩
    rw [BracketCount.depth_cons_of step_opens]
    exact depth_pairCount_add he 1

/-- What an annotation takes along opens every parenthesis that it closes. -/
theorem exists_afterMarker (ts : List Token) :
    ∃ front, ts = front ++ afterMarker ts ∧ OpensFirst front := by
  have hs : ∃ front, ts = front ++ afterSegments ts ∧ OpensFirst front := by
    fun_induction afterSegments ts with
    | case1 w r ih =>
      obtain ⟨front, he, hf⟩ := ih
      exact ⟨.mark '.' :: .word w :: front,
        congrArg (fun ts => .mark '.' :: .word w :: ts) he, hf.cons.cons⟩
    | case2 => exact ⟨[], rfl, 0, rfl⟩
  obtain ⟨front, he, hf⟩ := hs
  rw [afterMarker]
  split
  · next r hr =>
    obtain ⟨args, ha, hargs⟩ := exists_afterClose r
    refine ⟨front ++ .mark '(' :: args, ?_, hf.append hargs⟩
    rw [List.append_assoc, List.cons_append, ← ha, ← hr, ← he]
  · exact ⟨front, he, hf⟩

/-- What is dropped opens the parentheses that it closes. -/
theorem exists_dropModifiers (ts : List Token) :
    ∃ front, ts = front ++ dropModifiers ts ∧ OpensFirst front := by
  fun_induction dropModifiers ts with
  | case2 name r _ _ ih =>
    obtain ⟨marker, hm, ho⟩ := exists_afterMarker r
    obtain ⟨front, he, hf⟩ := ih
    refine ⟨.mark '@' :: .word name :: (marker ++ front), ?_, (ho.append hf).cons.cons⟩
    rw [List.cons_append, List.cons_append, List.append_assoc, ← he, ← hm]
  | case3 w r hw ih =>
    obtain ⟨front, he, hf⟩ := ih
    have ho : OpensFirst (r.take 2) := by
      rw [hw.2]
      exact ⟨0, rfl⟩
    refine ⟨.word w :: (r.take 2 ++ front), ?_, (ho.append hf).cons⟩
    rw [List.cons_append, List.append_assoc, ← he, List.take_append_drop]
  | case4 w r _ _ ih =>
    obtain ⟨front, he, hf⟩ := ih
    exact ⟨.word w :: front, congrArg (.word w :: ·) he, hf.cons⟩
  | _ => exact ⟨[], rfl, 0, rfl⟩

/-- A parenthesis that nothing opens is not dropped. -/
theorem dropModifiers_append_close {d : Nat} (h : (pairCount '(' ')').depth d ts = some 0) :
    ∃ front, dropModifiers (ts ++ .mark ')' :: rest) = front ++ .mark ')' :: rest := by
  obtain ⟨front, he, e, hf⟩ := exists_dropModifiers (ts ++ .mark ')' :: rest)
  rcases List.append_eq_append_iff.1 he with ⟨back, rfl, hr⟩ | ⟨back, rfl, hr⟩
  · cases back with
    | nil => exact ⟨[], hr.symm⟩
    | cons t back =>
      obtain ⟨rfl, -⟩ := List.cons.inj hr
      -- The parenthesis would be dropped where none is open.
      obtain ⟨f, hd, hc⟩ := Option.bind_eq_some_iff.1 (BracketCount.depth_append.symm.trans hf)
      have hz := depth_pairCount_add hd d
      rw [Nat.zero_add, h] at hz
      obtain rfl : f = 0 := by
        have := Option.some.inj hz
        omega
      cases hc
  · exact ⟨back, hr⟩

end

end TestImpact.Java
