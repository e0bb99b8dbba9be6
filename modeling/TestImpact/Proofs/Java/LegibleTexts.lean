import TestImpact.Proofs.Java.MentionedNames

/-!
# Names read off a text

A raw type has no blanks, so two words one after another are glued in it, and a literal counts as a
word. Where nothing of this happens, what is read off the text of a list of tokens are words of the
list. Main statements: a run of characters of names that stands whole in the text is such a word
(`word_mem_of_standsWhole`), and so is every name that a raw type mentions
(`word_mem_of_mentionedBy`).
-/

namespace TestImpact.Java

/-- The part stands in the text with no character of a name next to it. -/
def StandsWhole (part text : List Char) : Prop :=
  ∃ before after, text = before ++ (part ++ after) ∧ Apart before.getLast? ∧ Apart after.head?

/-- The words can be told apart in the text of the tokens: they are ASCII, no two of them stand one
after another, and there is no literal, whose text is a word. -/
structure Legible (ts : List Token) : Prop where
  ascii : ∀ w, .word w ∈ ts → ∀ c ∈ w.toList, isNamePart c = true
  apart : ∀ v w, ¬[.word v, .word w] <:+: ts
  no_literal : .literal ∉ ts

section
variable {part text : List Char} {c : Char} {ts us : List Token} {t : Token} {x w : String}

/-! ## Characters of names -/

/-- No blank belongs to a name. -/
theorem isNamePart_of_isBlank (h : isBlank c = true) : isNamePart c = false := by
  refine Bool.eq_false_iff.2 fun hp => ?_
  have hn := toNat_of_isNamePart hp
  have hc : ∀ n < 0x80, isNamePart (Char.ofNat n) = true → isBlank (Char.ofNat n) = false := by
    decide +kernel
  have hb := hc c.toNat hn (by rwa [Char.ofNat_toNat])
  rw [Char.ofNat_toNat, h] at hb
  cases hb

/-- A digit starts no word. -/
theorem isWordStart_of_isDigit (h : c.isDigit = true) : isWordStart c = false := by
  have hlt : c.toNat < 0x80 := Nat.lt_trans (toNat_of_isDigit h) (by decide)
  rw [isWordStart, isNameStart_of_isDigit h, Bool.false_or]
  exact decide_eq_false (Nat.not_le.2 hlt)

/-! ## Words of a list of tokens -/

/-- The words of an end of the list can be told apart. -/
theorem Legible.of_suffix (h : Legible ts) (hs : us <:+ ts) : Legible us where
  ascii w hw := h.ascii w (hs.mem hw)
  apart v w hi := h.apart v w (hi.trans hs.isInfix)
  no_literal hl := h.no_literal (hs.mem hl)

/-- Without the first token, the words can be told apart. -/
theorem Legible.tail (h : Legible (t :: ts)) : Legible ts := h.of_suffix (List.suffix_cons _ _)

/-- A mark that can be written as it is belongs to no name. -/
theorem isNamePart_mark (h : (Token.mark c).isLexeme = true) : isNamePart c = false := by
  simp only [Token.isLexeme, Bool.and_eq_true, Bool.not_eq_true'] at h
  obtain ⟨⟨-, hd⟩, hs⟩ := h
  simp only [isWordStart, isNameStart, Bool.or_eq_false_iff] at hs
  simp [isNamePart, Char.isAlphanum, hd, hs.1.1.1, hs.1.1.2, hs.1.2]

/-- A token is a word, or no character of its text belongs to names. -/
theorem word_or_isNamePart_text (hl : Legible ts) (ht : t ∈ ts) (hx : t.isLexeme = true) :
    (∃ w, t = .word w) ∨ ∀ c ∈ t.text.toList, isNamePart c = false := by
  cases t with
  | word w => exact .inl ⟨w, rfl⟩
  | mark c =>
    refine .inr fun d hd => ?_
    obtain rfl : d = c := by simpa [Token.text] using hd
    exact isNamePart_mark hx
  | ellipsis =>
    refine .inr fun d hd => ?_
    obtain rfl : d = '.' := by simpa [Token.text] using hd
    decide
  | doubleColon =>
    refine .inr fun d hd => ?_
    obtain rfl : d = ':' := by simpa [Token.text] using hd
    decide
  | literal => exact absurd ht hl.no_literal

/-- What belongs to words in the text of the tokens belongs to names. -/
theorem isNamePart_of_mem_charsOf (hl : Legible ts) (hx : ∀ t ∈ ts, t.isLexeme = true)
    (hm : c ∈ charsOf ts) (hc : isWordPart c = true) : isNamePart c = true := by
  obtain ⟨t, ht, hct⟩ := List.mem_flatMap.1 hm
  cases t with
  | word w => exact hl.ascii w ht c hct
  | mark d =>
    obtain rfl : c = d := by simpa [Token.text] using hct
    have hlex := hx _ ht
    simp only [Token.isLexeme, Bool.and_eq_true, Bool.not_eq_true', isWordStart,
      Bool.or_eq_false_iff] at hlex
    exact (Bool.or_eq_true_iff.1 hc).resolve_right (by simp [hlex.2.2])
  | ellipsis =>
    obtain rfl : c = '.' := by simpa [Token.text] using hct
    exact absurd hc (by decide)
  | doubleColon =>
    obtain rfl : c = ':' := by simpa [Token.text] using hct
    exact absurd hc (by decide)
  | literal => exact absurd ht hl.no_literal

/-- A word has a first character. -/
theorem exists_cons_of_isLexeme (h : (Token.word w).isLexeme = true) :
    ∃ c r, w.toList = c :: r ∧ isWordStart c = true := by
  rw [Token.isLexeme, Bool.and_eq_true] at h
  cases hw : w.toList with
  | nil => rw [hw] at h; cases h.1
  | cons c r =>
    rw [hw] at h
    exact ⟨c, r, rfl, h.1⟩

/-- Behind a word, the text goes on with no character of a name. -/
theorem apart_behind_word (hl : Legible (.word w :: ts)) (hx : ∀ t ∈ ts, t.isLexeme = true) :
    Apart (charsOf ts).head? := by
  cases ts with
  | nil => exact apart_none
  | cons t ts =>
    have ht : ∀ c ∈ t.text.toList, isNamePart c = false := by
      have hor := word_or_isNamePart_text hl.tail List.mem_cons_self (hx t List.mem_cons_self)
      refine hor.resolve_left ?_
      rintro ⟨v, rfl⟩
      exact hl.apart w v (List.prefix_append [.word w, .word v] ts).isInfix
    have hne : t.text.toList ≠ [] := by
      have hlex := hx t List.mem_cons_self
      cases t with
      | word v =>
        obtain ⟨c, r, hv, -⟩ := exists_cons_of_isLexeme hlex
        rw [Token.text, hv]
        exact List.cons_ne_nil _ _
      | mark | ellipsis | doubleColon | literal => simp [Token.text]
    intro c hc
    rw [charsOf_cons, List.head?_append_of_ne_nil _ hne] at hc
    exact ht c (List.mem_of_mem_head? hc)

/-- What is taken from a text that starts with a run of characters of names is that run. -/
theorem takeWhile_run {after : List Char} (hp : ∀ c ∈ part, isNamePart c = true)
    (ha : Apart after.head?) : (part ++ after).takeWhile isNamePart = part := by
  rw [List.takeWhile_append_of_pos hp]
  cases after with
  | nil => simp
  | cons c after => rw [List.takeWhile_cons_of_neg (by simp [ha c rfl]), List.append_nil]

/-- A run of characters of names that stands whole and starts inside a word is the word. -/
theorem eq_of_inside_word {rest before more after : List Char}
    (he : w.toList ++ rest = before ++ (x.toList ++ after)) (hin : w.toList = before ++ c :: more)
    (hw : ∀ c ∈ w.toList, isNamePart c = true) (hr : Apart rest.head?)
    (hp : ∀ c ∈ x.toList, isNamePart c = true) (hb : Apart before.getLast?)
    (ha : Apart after.head?) : x = w := by
  have hbefore : before = [] := by
    rw [← List.getLast?_eq_none_iff, Option.eq_none_iff_forall_ne_some]
    intro d hlast
    have hn := hb d hlast
    rw [hw d (hin ▸ List.mem_append_left _ (List.mem_of_getLast? hlast))] at hn
    cases hn
  rw [hbefore, List.nil_append] at he
  have hrun := takeWhile_run hw hr
  rw [he, takeWhile_run hp ha] at hrun
  exact String.toList_inj.1 hrun

/-- A run of characters of names that stands whole in the text of the tokens is one of the words. -/
theorem word_mem_of_standsWhole (hl : Legible ts) (hx : ∀ t ∈ ts, t.isLexeme = true)
    (hne : x ≠ "") (hp : ∀ c ∈ x.toList, isNamePart c = true)
    (h : StandsWhole x.toList (charsOf ts)) : .word x ∈ ts := by
  have hcons : x.toList ≠ [] := by simpa using hne
  obtain ⟨before, after, he, hb, ha⟩ := h
  induction ts generalizing before with
  | nil => simp [hcons] at he
  | cons t ts ih =>
    obtain ⟨htl, htx⟩ := List.forall_mem_cons.1 hx
    rw [charsOf_cons] at he
    rcases List.append_eq_append_iff.1 he with ⟨more, rfl, hrest⟩ | ⟨more, htext, hrest⟩
    · -- the run stands behind the token
      refine List.mem_cons_of_mem _ (ih hl.tail htx more hrest fun c hc => hb c ?_)
      rw [List.getLast?_append, Option.mem_def.1 hc]
      rfl
    cases more with
    | nil => exact List.mem_cons_of_mem _ (ih hl.tail htx [] (by simpa using hrest.symm) apart_none)
    | cons d more =>
      -- the run starts inside the token, which has to be a word
      obtain ⟨c, r, hxc⟩ := List.exists_cons_of_ne_nil hcons
      have hd : isNamePart d = true := by
        rw [hxc] at hrest
        rw [← (List.cons.inj hrest).1]
        exact hp c (hxc ▸ List.mem_cons_self)
      rcases word_or_isNamePart_text hl List.mem_cons_self htl with ⟨w, rfl⟩ | hmark
      · have hw := hl.ascii w List.mem_cons_self
        rw [eq_of_inside_word he htext hw (apart_behind_word hl htx) hp hb ha]
        exact List.mem_cons_self
      · have hn := hmark d (htext ▸ List.mem_append_right _ List.mem_cons_self)
        rw [hd] at hn
        cases hn

/-! ## What a raw type mentions -/

/-- What ends a head goes on with no character of a name. -/
theorem EndsHead.apart {after : List Char} (h : EndsHead after) : Apart after.head? := by
  obtain ⟨blanks, m, n, rest, rfl, hb, hr⟩ := h
  refine forall_head?_append (fun c hc => isNamePart_of_isBlank (hb c (List.mem_of_mem_head? hc)))
    (forall_head?_append ?_ (forall_head?_append ?_ fun c hc => ?_))
  · cases m with
    | zero => exact apart_none
    | succ m => exact apart_some (by decide)
  · cases n with
    | zero => exact apart_none
    | succ n => exact apart_some (by decide)
  · rw [hr c hc]
    decide

/-- A name in front of the arguments stands whole. -/
theorem NamedInFront.standsWhole (h : NamedInFront x text) : StandsWhole x.toList text := by
  obtain ⟨before, after, he, -, hb, ha⟩ := h
  refine ⟨before, after, he, ?_, ?_⟩
  · rcases hb with hb | hb
    · exact fun c hc => isNamePart_of_isBlank (hb c (List.mem_of_getLast? hc))
    · rw [hb]
      exact apart_some (by decide)
  · rcases ha with ha | ⟨-, ha⟩
    · exact ha.apart
    · rw [ha]
      exact apart_some (by decide)

/-- A name in arguments stands whole, with the digits in front of it. -/
theorem NamedInArguments.exists_standsWhole (h : NamedInArguments x text) :
    (∀ c ∈ x.toList, isNamePart c = true) ∧
      ∃ digits, (∀ c ∈ digits, c.isDigit = true) ∧ StandsWhole (digits ++ x.toList) text := by
  obtain ⟨before, digits, after, he, -, hx⟩ := h
  exact ⟨hx.parts, digits, hx.digits, before, after, by rw [he, List.append_assoc],
    hx.apart_before, hx.apart_after⟩

/-- An identifier that the text of the tokens mentions is one of the words. -/
theorem word_mem_of_mentionedBy (hl : Legible ts) (hx : ∀ t ∈ ts, t.isLexeme = true)
    (i : Identifier) (h : i.text ∈ mentionedBy (joinTokens ts)) : .word i.text ∈ ts := by
  have hne := i.toList_ne_nil
  rw [mem_mentionedBy_iff, toList_joinTokens] at h
  rcases h with h | h
  · have hwhole := h.standsWhole
    refine word_mem_of_standsWhole hl hx (by simpa using hne) (fun c hc => ?_) hwhole
    obtain ⟨before, after, he, -, -⟩ := hwhole
    refine isNamePart_of_mem_charsOf hl hx ?_ (i.isWordPart hc).1
    rw [he]
    exact List.mem_append_right _ (List.mem_append_left _ hc)
  · obtain ⟨hparts, digits, hdigits, hwhole⟩ := h.exists_standsWhole
    have hrun : ∀ c ∈ digits ++ i.text.toList, isNamePart c = true := by
      intro c hc
      rcases List.mem_append.1 hc with hc | hc
      · simp [isNamePart, Char.isAlphanum, hdigits c hc]
      · exact hparts c hc
    obtain ⟨w, hw⟩ : ∃ w : String, w.toList = digits ++ i.text.toList := ⟨_, String.toList_ofList⟩
    rw [← hw] at hrun hwhole
    have hm : .word w ∈ ts := by
      refine word_mem_of_standsWhole hl hx (fun he => ?_) hrun hwhole
      rw [he] at hw
      exact hne (List.append_eq_nil_iff.1 hw.symm).2
    -- no word starts with a digit
    cases digits with
    | nil => rwa [String.toList_inj.1 hw] at hm
    | cons e digits =>
      obtain ⟨d, w', hd, hstart⟩ := exists_cons_of_isLexeme (hx _ hm)
      rw [hw] at hd
      rw [← (List.cons.inj hd).1, isWordStart_of_isDigit (hdigits e List.mem_cons_self)] at hstart
      cases hstart

end

end TestImpact.Java
