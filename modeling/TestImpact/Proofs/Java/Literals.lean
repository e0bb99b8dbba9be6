import TestImpact.Java.Lexer

/-!
# What stands inside comments and literals

A comment or literal ends at the first place that closes it, and a backslash in a literal takes the
character behind it along. Main statements: the reader of each kind finds an end just if what stands
in front of it may be the content (`afterBlockComment?_eq_some`, `afterQuote?_eq_some`,
`afterTextBlock?_eq_some`). So what follows the end has no part in where it is found.
-/

namespace TestImpact.Java

/-- The content of a string or character between quotes `q`: no unescaped quote and no unescaped
line feed. A backslash escapes the character behind it, so none stands alone at the end. -/
inductive LineContent (q : Char) : List Char → Prop
  | nil : LineContent q []
  | escaped {c : Char} {r : List Char} : LineContent q r → LineContent q ('\\' :: c :: r)
  | plain {c : Char} {r : List Char} :
    c ≠ '\\' → c ≠ q → c ≠ '\n' → LineContent q r → LineContent q (c :: r)

/-- The content of a text block: an unescaped quote is neither the last character nor the first of
three that are not escaped. -/
inductive BlockContent : List Char → Prop
  | nil : BlockContent []
  | escaped {c : Char} {r : List Char} : BlockContent r → BlockContent ('\\' :: c :: r)
  | plain {c : Char} {r : List Char} :
    c ≠ '\\' → (c = '"' → r ≠ [] ∧ ¬['"', '"'] <+: r) → BlockContent r → BlockContent (c :: r)

section
variable {q c : Char} {cs content r rest : List Char}

/-! ## Comments -/

/-- A content without `*/` goes up to the `*/` behind it. -/
theorem afterBlockComment?_append (h : ¬['*', '/'] <:+: content) :
    afterBlockComment? (content ++ '*' :: '/' :: rest) = some rest := by
  induction content with
  | nil => rfl
  | cons c r ih =>
    have hr : ¬['*', '/'] <:+: r := fun hi => h (hi.trans (List.suffix_cons c r).isInfix)
    have hc : ∀ s, c = '*' → r ++ '*' :: '/' :: rest = '/' :: s → False := by
      rintro s rfl he
      cases r with
      | nil => cases he
      | cons d r =>
        obtain rfl : d = '/' := (List.cons.inj he).1
        exact h ⟨[], r, rfl⟩
    rw [List.cons_append, afterBlockComment?.eq_3 _ _ hc]
    exact ih hr

/-- A block comment ends at the first `*/`. -/
theorem afterBlockComment?_eq_some :
    afterBlockComment? cs = some rest ↔
      ∃ content, ¬['*', '/'] <:+: content ∧ cs = content ++ '*' :: '/' :: rest := by
  refine ⟨fun h => ?_, ?_⟩
  · fun_induction afterBlockComment? cs with
    | case1 => cases h
    | case2 r => cases h; exact ⟨[], by simp, rfl⟩
    | case3 c r hne ih =>
      obtain ⟨content, hc, rfl⟩ := ih h
      refine ⟨c :: content, fun hi => ?_, rfl⟩
      rcases List.infix_cons_iff.1 hi with hp | hi
      · obtain ⟨rfl, hslash⟩ := List.cons_prefix_cons.1 hp
        cases content with
        | nil => exact absurd (List.prefix_nil.1 hslash) (List.cons_ne_nil _ _)
        | cons d content =>
          obtain ⟨rfl, -⟩ := List.cons_prefix_cons.1 hslash
          exact hne _ rfl rfl
      · exact hc hi
  · rintro ⟨content, hc, rfl⟩
    exact afterBlockComment?_append hc

/-! ## Strings and characters -/

/-- Without a backslash, a quoted literal goes on to the quote or fails at the end of the line. -/
theorem afterQuote?_cons (hc : c ≠ '\\') :
    afterQuote? q (c :: r) =
      if c = '\n' then none else if c = q then some r else afterQuote? q r :=
  afterQuote?.eq_4 q c r (fun h _ => hc h) fun _ _ h _ => hc h

/-- What is not a backslash at the front, alone or with a character to escape, is no backslash. -/
theorem ne_backslash (h₁ : c = '\\' → r = [] → False) (h₂ : ∀ d s, c = '\\' → r = d :: s → False) :
    c ≠ '\\' := by
  rintro rfl
  cases r with
  | nil => exact h₁ rfl rfl
  | cons d s => exact h₂ d s rfl rfl

/-- A content goes up to the quote behind it. -/
theorem LineContent.afterQuote?_append (hq : q ≠ '\\') (hn : q ≠ '\n') (h : LineContent q content) :
    afterQuote? q (content ++ q :: rest) = some rest := by
  induction h with
  | nil => rw [List.nil_append, afterQuote?_cons hq, if_neg hn, if_pos rfl]
  | escaped _ ih => exact ih
  | plain hb hc hl _ ih => rw [List.cons_append, afterQuote?_cons hb, if_neg hl, if_neg hc, ih]

/-- A string or character ends at the first quote that is not escaped, if that is on its line. -/
theorem afterQuote?_eq_some (hq : q ≠ '\\') (hn : q ≠ '\n') :
    afterQuote? q cs = some rest ↔
      ∃ content, LineContent q content ∧ cs = content ++ q :: rest := by
  refine ⟨fun h => ?_, ?_⟩
  · fun_induction afterQuote? q cs with
    | case1 => cases h
    | case2 => cases h
    | case3 c r ih =>
      obtain ⟨content, hc, rfl⟩ := ih h
      exact ⟨'\\' :: c :: content, .escaped hc, rfl⟩
    | case4 => cases h
    | case5 => cases h; exact ⟨[], .nil, rfl⟩
    | case6 c r h₁ h₂ hl hc ih =>
      obtain ⟨content, hcontent, rfl⟩ := ih h
      exact ⟨c :: content, .plain (ne_backslash h₁ h₂) hc hl hcontent, rfl⟩
  · rintro ⟨content, hc, rfl⟩
    exact hc.afterQuote?_append hq hn

/-! ## Text blocks -/

/-- Without a backslash and three quotes, a text block goes on. -/
theorem afterTextBlock?_cons (hc : c ≠ '\\') (hq : c = '"' → ¬['"', '"'] <+: r) :
    afterTextBlock? (c :: r) = afterTextBlock? r := by
  refine afterTextBlock?.eq_5 c r (fun h _ => hc h) (fun _ _ h _ => hc h) ?_
  rintro s h rfl
  exact hq h ⟨s, rfl⟩

/-- Behind an unescaped quote of a content, two quotes that close the block are no part of three. -/
theorem BlockContent.not_prefix_append (h : BlockContent content) (hne : content ≠ [])
    (hp : ¬['"', '"'] <+: content) : ¬['"', '"'] <+: content ++ '"' :: '"' :: '"' :: rest := by
  intro hpre
  cases h with
  | nil => exact hne rfl
  | escaped => cases (List.cons_prefix_cons.1 hpre).1
  | @plain d r _ hd =>
    obtain ⟨rfl, hr⟩ := List.cons_prefix_cons.1 hpre
    cases r with
    | nil => exact (hd rfl).1 rfl
    | cons e r =>
      obtain ⟨rfl, -⟩ := List.cons_prefix_cons.1 hr
      exact hp ⟨r, rfl⟩

/-- A content goes up to the three quotes behind it. -/
theorem BlockContent.afterTextBlock?_append (h : BlockContent content) :
    afterTextBlock? (content ++ '"' :: '"' :: '"' :: rest) = some rest := by
  induction h with
  | nil => exact afterTextBlock?.eq_4 rest
  | escaped _ ih => exact ih
  | plain hb hc hr ih =>
    rw [List.cons_append, afterTextBlock?_cons hb, ih]
    exact fun he => hr.not_prefix_append (hc he).1 (hc he).2

/-- A text block ends at the first three quotes that are not escaped. -/
theorem afterTextBlock?_eq_some :
    afterTextBlock? cs = some rest ↔
      ∃ content, BlockContent content ∧ cs = content ++ '"' :: '"' :: '"' :: rest := by
  refine ⟨fun h => ?_, ?_⟩
  · fun_induction afterTextBlock? cs with
    | case1 => cases h
    | case2 => cases h
    | case3 c r ih =>
      obtain ⟨content, hc, rfl⟩ := ih h
      exact ⟨'\\' :: c :: content, .escaped hc, rfl⟩
    | case4 => cases h; exact ⟨[], .nil, rfl⟩
    | case5 c r h₁ h₂ hq ih =>
      obtain ⟨content, hc, rfl⟩ := ih h
      refine ⟨c :: content, .plain (ne_backslash h₁ h₂) (fun he => ⟨?_, ?_⟩) hc, rfl⟩
      · rintro rfl
        exact hq _ he rfl
      · rintro ⟨s, rfl⟩
        exact hq _ he rfl
  · rintro ⟨content, hc, rfl⟩
    exact hc.afterTextBlock?_append

end

end TestImpact.Java
