import TestImpact.Java.Lexer

/-!
# Writing tokens

`spell` writes a list of tokens with a space behind each of them. Main statement: tokens that can be
written as they are, are read back (`tokens_spell`).
-/

namespace TestImpact.Java

/-! ## What a reader gives -/

/-- Nothing in front changes nothing. -/
theorem map_nil_append {ε α : Type} (x : Except ε (List α)) : x.map ([] ++ ·) = x := by
  cases x <;> rfl

/-- What is put in front twice is put in front at once. -/
theorem map_append_map {ε α : Type} (x : Except ε (List α)) (as bs : List α) :
    (x.map (bs ++ ·)).map (as ++ ·) = x.map (as ++ bs ++ ·) := by
  cases x with
  | error => rfl
  | ok cs => exact congrArg Except.ok (List.append_assoc as bs cs).symm

/-- A result behind a map is the image of a result. -/
theorem eq_ok_of_map {ε α β : Type} {x : Except ε α} {f : α → β} {b : β} (h : x.map f = .ok b) :
    ∃ a, x = .ok a ∧ f a = b := by
  cases x with
  | error => cases h
  | ok a => exact ⟨a, rfl, Except.ok.inj h⟩

/-- A result behind two steps comes from a result of the first one. -/
theorem eq_ok_of_bind {ε α β : Type} {x : Except ε α} {f : α → Except ε β} {b : β}
    (h : x >>= f = .ok b) : ∃ a, x = .ok a ∧ f a = .ok b := by
  cases x with
  | error => cases h
  | ok a => exact ⟨a, rfl, h⟩

/-- A result that can be seen is the result. -/
theorem eq_ok_of_toOption {ε α : Type} {x : Except ε α} {a : α} (h : x.toOption = some a) :
    x = .ok a := by
  cases x with
  | error => cases h
  | ok b => exact congrArg Except.ok (Option.some.inj h)

/-! ## The text of tokens -/

namespace Token

/-- The characters of a token; a literal is written as a number. -/
def spelling : Token → List Char
  | word s => s.toList
  | mark c => [c]
  | ellipsis => ['.', '.', '.']
  | doubleColon => [':', ':']
  | literal => ['0']

/-- The token can be written as it is: a word is a word of the language, and a mark is a character
that nothing else starts with. -/
def isLexeme : Token → Bool
  | word s => s.toList.head?.any isWordStart && s.toList.all isWordPart
  | mark c => !isSpace c && c != '"' && c != '\'' && !c.isDigit && !isWordStart c
  | _ => true

end Token

/-- The tokens with a space behind each of them. -/
def spell (ts : List Token) : List Char := ts.flatMap fun t => t.spelling ++ [' ']

section
variable {c : Char} {r rest : List Char} {t : Token} {ts : List Token}

/-- The codes of letters lie between those of `@` and of the opening brace. -/
theorem toNat_of_isAlpha (h : c.isAlpha = true) : 0x40 < c.toNat ∧ c.toNat < 0x7b := by
  rcases Bool.or_eq_true_iff.1 h with h | h
  · have hu := of_decide_eq_true h
    have hl : 0x41 ≤ c.toNat := UInt32.le_iff_toNat_le.1 hu.1
    have hr : c.toNat ≤ 0x5a := UInt32.le_iff_toNat_le.1 hu.2
    omega
  · have hb := Bool.and_eq_true_iff.1 h
    have hl : 0x61 ≤ c.toNat := UInt32.le_iff_toNat_le.1 (of_decide_eq_true hb.1)
    have hr : c.toNat ≤ 0x7a := UInt32.le_iff_toNat_le.1 (of_decide_eq_true hb.2)
    omega

/-- The codes of digits lie below that of the colon. -/
theorem toNat_of_isDigit (h : c.isDigit = true) : c.toNat < 0x3a :=
  Nat.lt_succ_of_le (Char.isDigit_iff_toNat.1 h).2

/-- No digit starts a word. -/
theorem isDigit_of_isWordStart (h : isWordStart c = true) : c.isDigit = false := by
  refine Bool.eq_false_iff.2 fun hd => ?_
  have hn := toNat_of_isDigit hd
  simp only [isWordStart, isNameStart, Bool.or_eq_true, decide_eq_true_eq] at h
  rcases h with ((h | rfl) | rfl) | h
  · have ha := toNat_of_isAlpha h
    omega
  · revert hd; decide
  · revert hd; decide
  · omega

/-- No space starts a word. -/
theorem isSpace_of_isWordStart (h : isWordStart c = true) : isSpace c = false := by
  refine Bool.eq_false_iff.2 fun hs => ?_
  simp only [isSpace, Bool.or_eq_true, decide_eq_true_eq] at hs
  rcases hs with (((rfl | rfl) | rfl) | rfl) | rfl
  all_goals revert h; decide

/-- What starts a name is a character of names. -/
theorem isNamePart_of_isNameStart (hs : isNameStart c = true) : isNamePart c = true := by
  simp only [isNameStart, isNamePart, Char.isAlphanum, Bool.or_eq_true] at hs ⊢
  exact hs.imp_left (Or.imp_left .inl)

/-- A word may go on with what may start one. -/
theorem isWordPart_of_isWordStart (h : isWordStart c = true) : isWordPart c = true :=
  Bool.or_eq_true_iff.2 ((Bool.or_eq_true_iff.1 h).imp_left isNamePart_of_isNameStart)

/-- A word up to the space behind it. -/
theorem step_word (hc : isWordStart c = true) (hr : ∀ d ∈ r, isWordPart d = true) :
    step c (r ++ ' ' :: rest) = .ok (some (.word (.ofList (c :: r))), ' ' :: rest) := by
  have hne : ∀ d, isWordStart d = false → c ≠ d := by
    rintro d hd rfl
    rw [hd] at hc
    cases hc
  have ht : (r ++ ' ' :: rest).takeWhile isWordPart = r := by
    rw [List.takeWhile_append_of_pos hr]
    simp [show isWordPart ' ' = false from by decide]
  have hd : (r ++ ' ' :: rest).dropWhile isWordPart = ' ' :: rest := by
    rw [List.dropWhile_append_of_pos hr]
    simp [show isWordPart ' ' = false from by decide]
  simp [step, isSpace_of_isWordStart hc, isDigit_of_isWordStart hc, hc, ht, hd,
    hne '/' (by decide), hne '"' (by decide), hne '\'' (by decide)]

/-- A token that is written as it is is read up to the space behind it. -/
theorem step_spelling (ht : t.isLexeme = true) (rest : List Char) :
    ∃ c r, t.spelling = c :: r ∧ step c (r ++ ' ' :: rest) = .ok (some t, ' ' :: rest) := by
  cases t with
  | word s =>
    simp only [Token.isLexeme, Bool.and_eq_true, List.all_eq_true] at ht
    cases hs : s.toList with
    | nil => rw [hs] at ht; exact absurd ht.1 (by decide)
    | cons c r =>
      rw [hs] at ht
      refine ⟨c, r, hs, ?_⟩
      rw [step_word ht.1 fun d hd => ht.2 d (List.mem_cons_of_mem _ hd), ← hs, String.ofList_toList]
  | mark c =>
    refine ⟨c, [], rfl, ?_⟩
    simp only [Token.isLexeme, Bool.and_eq_true, Bool.not_eq_true', bne_iff_ne] at ht
    obtain ⟨⟨⟨⟨hs, hq⟩, ha⟩, hd⟩, hw⟩ := ht
    simp [step, hs, hq, ha, hd, hw]
  | ellipsis => exact ⟨'.', ['.', '.'], rfl, rfl⟩
  | doubleColon => exact ⟨':', [':'], rfl, rfl⟩
  | literal => exact ⟨'0', [], rfl, rfl⟩

/-- The tokens of a text are that of the first step and those of what follows it. -/
theorem tokens_cons {o : Option Token} (hs : step c r = .ok (o, rest)) :
    tokens (c :: r) = (tokens rest).map (o.toList ++ ·) := by
  rw [tokens]
  split
  · next h => rw [hs] at h; cases h
  · next h => rw [hs] at h; cases h; rfl

/-- A fault of the first step is the fault of the text. -/
theorem tokens_error {e : Malformed} (hs : step c r = .error e) : tokens (c :: r) = .error e := by
  rw [tokens]
  split
  · next h => rw [hs] at h; cases h; rfl
  · next h => rw [hs] at h; cases h

/-- Tokens that are written as they are, are read back. -/
theorem tokens_spell (h : ∀ t ∈ ts, t.isLexeme = true) : tokens (spell ts) = .ok ts := by
  induction ts with
  | nil => rw [spell, List.flatMap_nil, tokens]
  | cons t ts ih =>
    obtain ⟨ht, hts⟩ := List.forall_mem_cons.1 h
    obtain ⟨c, r, hsp, hs⟩ := step_spelling ht (spell ts)
    have hspace : tokens (' ' :: spell ts) = .ok ts := by
      rw [tokens_cons (o := none) rfl, ih hts]
      rfl
    have he : spell (t :: ts) = c :: (r ++ ' ' :: spell ts) := by
      rw [spell, List.flatMap_cons, hsp, List.append_assoc]
      rfl
    rw [he, tokens_cons hs, hspace]
    rfl

end

end TestImpact.Java
