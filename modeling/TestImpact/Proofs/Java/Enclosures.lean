import TestImpact.Java.Source
import TestImpact.Proofs.Java.Literals
import TestImpact.Proofs.Java.TokenText

/-!
# What comments and literals hold does not count

The tokens of a text are read from left to right, with a look at what follows at most two characters
ahead. So what stands behind a token, a comment or a literal does not change how it is read, as long
as it starts in the same way (`step_behind`), and the tokens of a text that is read up to some place
are followed by those of what stands there (`ReadsUpTo.tokens`). Main statement: a comment adds
nothing to the tokens and a literal adds one, whatever they hold, so sources that differ only in the
contents of comments and literals have the same record, or the same fault
(`read_whatever_enclosed`).
-/

namespace TestImpact.Java

/-! ## Behind a token -/

/-- The character that a text starts with; the end of a text is taken for the end of a line. -/
def front (s : List Char) : Char := s.head?.getD '\n'

/-- The texts start in the same way, and with a character that no token in front of them goes on
with. -/
def SameFront (s s' : List Char) : Prop := front s = front s' ∧ front s ∈ ['\n', '/', '"', '\'']

section
variable {c x : Char} {r s s' rest : List Char} {t : Option Token} {p : Char → Bool} {q : Char}

/-- Starting in the same way goes both ways. -/
theorem SameFront.symm (h : SameFront s s') : SameFront s' s := ⟨h.1.symm, h.1 ▸ h.2⟩

/-- Such a text starts with no other character than the four. -/
theorem SameFront.ne (h : SameFront s s') (hx : x ∉ ['\n', '/', '"', '\'']) : front s ≠ x := by
  rintro rfl
  exact hx h.2

/-- A look at the next character sees the front, unless this is the end of a line. -/
theorem head?_eq_some (hx : x ≠ '\n') : s.head? = some x ↔ front s = x := by
  cases s with
  | nil => simp [front, hx.symm]
  | cons d s => simp [front]

/-- A look at the next character. -/
theorem SameFront.head?_append (h : SameFront s s') (hx : x ≠ '\n') :
    (r ++ s).head? = some x ↔ (r ++ s').head? = some x := by
  cases r with
  | nil => rw [List.nil_append, List.nil_append, head?_eq_some hx, head?_eq_some hx, h.1]
  | cons d r => rfl

/-- A look at the next two characters. -/
theorem SameFront.take_append (h : SameFront s s') (hx : x ≠ '\n') (hr : r ≠ [] ∨ front s ≠ x) :
    (r ++ s).take 2 = [x, x] ↔ (r ++ s').take 2 = [x, x] := by
  have hone : ∀ u : List Char, u.take 1 = [x] ↔ u.head? = some x := by
    intro u
    cases u <;> simp
  match r, hr with
  | [], hr =>
    have hne : ∀ u : List Char, front u ≠ x → ¬u.take 2 = [x, x] := by
      rintro (_ | ⟨d, u⟩) hu he
      · cases he
      · exact hu (List.cons.inj he).1
    have hs := hr.resolve_left (fun h => h rfl)
    exact iff_of_false (hne s hs) (hne s' (h.1 ▸ hs))
  | [d], _ =>
    show d :: s.take 1 = [x, x] ↔ d :: s'.take 1 = [x, x]
    rw [List.cons.injEq, List.cons.injEq, hone, hone, head?_eq_some hx, head?_eq_some hx, h.1]
  | d :: e :: r, _ => rfl

/-- Such a text starts with no character of a word. -/
theorem SameFront.takeWhile_eq_nil (h : SameFront s s') : s.takeWhile isWordPart = [] := by
  cases s with
  | nil => rfl
  | cons d s =>
    have hd : ∀ e ∈ ['\n', '/', '"', '\''], isWordPart e ≠ true := by
      simp [isWordPart, isNamePart]
    exact List.takeWhile_cons_of_neg (hd d h.2)

/-- Such a text has no run of a word's characters to drop. -/
theorem SameFront.dropWhile_eq (h : SameFront s s') : s.dropWhile isWordPart = s := by
  have ht := List.takeWhile_append_dropWhile (p := isWordPart) (l := s)
  rwa [h.takeWhile_eq_nil, List.nil_append] at ht

/-- What is dropped in front of the place where `s` starts is dropped in front of `s'`. -/
theorem dropWhile_behind (hp : s.dropWhile p = s → s'.dropWhile p = s')
    (h : (r ++ s).dropWhile p = rest ++ s) : (r ++ s').dropWhile p = rest ++ s' := by
  rw [List.dropWhile_append] at h ⊢
  split at h
  · next he =>
    have hlen := congrArg List.length h
    have hle : (s.dropWhile p).length ≤ s.length := (List.dropWhile_sublist p).length_le
    rw [List.length_append] at hlen
    obtain rfl : rest = [] := List.eq_nil_of_length_eq_zero (by omega)
    rw [if_pos he, hp h, List.nil_append]
  · next he => rw [if_neg he, List.append_cancel_right h]

/-- A line that ends in front of `s` ends in front of `s'`. -/
theorem dropWhile_newline (h : SameFront s s') (hs : s.dropWhile (· ≠ '\n') = s) :
    s'.dropWhile (· ≠ '\n') = s' := by
  have hf : front s = '\n' := by
    cases s with
    | nil => rfl
    | cons d s =>
      have hle := (List.dropWhile_sublist (· ≠ '\n') (l := s)).length_le
      by_cases hd : d = '\n'
      · exact hd
      · rw [List.dropWhile_cons_of_pos (by simpa using hd)] at hs
        rw [hs, List.length_cons] at hle
        omega
  rw [h.1] at hf
  cases s' with
  | nil => rfl
  | cons d s' => exact List.dropWhile_cons_of_neg (by simpa [front] using hf)

/-- The end of a comment does not depend on what stands behind it. -/
theorem afterBlockComment?_behind (s' : List Char)
    (h : afterBlockComment? (r ++ s) = some (rest ++ s)) :
    afterBlockComment? (r ++ s') = some (rest ++ s') := by
  obtain ⟨content, hc, he⟩ := afterBlockComment?_eq_some.1 h
  obtain rfl : r = content ++ '*' :: '/' :: rest := List.append_cancel_right (by simpa using he)
  exact afterBlockComment?_eq_some.2 ⟨content, hc, by simp⟩

/-- The end of a quoted literal does not depend on what stands behind it. -/
theorem afterQuote?_behind (s' : List Char) (hq : q ≠ '\\') (hn : q ≠ '\n')
    (h : afterQuote? q (r ++ s) = some (rest ++ s)) :
    afterQuote? q (r ++ s') = some (rest ++ s') := by
  obtain ⟨content, hc, he⟩ := (afterQuote?_eq_some hq hn).1 h
  obtain rfl : r = content ++ q :: rest := List.append_cancel_right (by simpa using he)
  exact (afterQuote?_eq_some hq hn).2 ⟨content, hc, by simp⟩

/-- The end of a text block does not depend on what stands behind it. -/
theorem afterTextBlock?_behind (s' : List Char)
    (h : afterTextBlock? (r ++ s) = some (rest ++ s)) :
    afterTextBlock? (r ++ s') = some (rest ++ s') := by
  obtain ⟨content, hc, he⟩ := afterTextBlock?_eq_some.1 h
  obtain rfl : r = content ++ '"' :: '"' :: '"' :: rest :=
    List.append_cancel_right (by simpa using he)
  exact afterTextBlock?_eq_some.2 ⟨content, hc, by simp⟩

/-- A number ends where the text goes on with none of its characters. -/
theorem SameFront.afterNumber_append (h : SameFront s s') :
    afterNumber (r ++ s) = afterNumber r ++ s := by
  have hd : ∀ e ∈ ['\n', '/', '"', '\''],
      e.isDigit = false ∧ (e.isAlphanum || e = '_') = false ∧ e ≠ '.' := by
    simp
  have hs : s.head?.any Char.isDigit = false := by
    cases s with
    | nil => rfl
    | cons d s => exact (hd d h.2).1
  fun_induction afterNumber r with
  | case1 =>
    cases s with
    | nil => rfl
    | cons d s =>
      obtain ⟨-, ha, hdot⟩ := hd d h.2
      show afterNumber (d :: s) = d :: s
      rw [afterNumber, if_neg]
      simp [ha, hdot]
  | case2 c r hc ih =>
    rw [List.cons_append, afterNumber, if_pos, ih]
    cases r <;> simp_all
  | case3 c r hc =>
    rw [List.cons_append, afterNumber, if_neg]
    cases r <;> simp_all

/-- A word in front of such a text is the same word in front of the other. -/
theorem SameFront.takeWhile_append (h : SameFront s s') :
    (r ++ s').takeWhile isWordPart = (r ++ s).takeWhile isWordPart := by
  rw [List.takeWhile_append, List.takeWhile_append, h.takeWhile_eq_nil, h.symm.takeWhile_eq_nil]

/-- A string has its closing quote behind it. -/
theorem ne_nil_of_afterQuote? (hq : q ≠ '\\') (hn : q ≠ '\n')
    (h : afterQuote? q (r ++ s) = some (rest ++ s)) : r ≠ [] := by
  rintro rfl
  obtain ⟨content, -, he⟩ := (afterQuote?_eq_some hq hn).1 h
  have hlen := congrArg List.length he
  simp only [List.nil_append, List.length_append, List.length_cons] at hlen
  omega

/-- A next character that `s` does not start with stands in front of `s`. -/
theorem ne_nil_of_head? (hx : x ≠ '\n') (hne : front s ≠ x) (h : (r ++ s).head? = some x) :
    r ≠ [] := by
  rintro rfl
  exact hne ((head?_eq_some hx).1 h)

/-- Two equal characters are a start without the text behind, if that starts with another. -/
theorem two_le_of_take (hne : front s ≠ x) (h : (r ++ s).take 2 = [x, x]) : 2 ≤ r.length := by
  have hs : ∀ n u, s.take (n + 1) ≠ x :: u := by
    intro n u hu
    cases s with
    | nil => cases hu
    | cons d s => exact hne (List.cons.inj hu).1
  match r, h with
  | [], h => exact absurd h (hs _ _)
  | [d], h => exact absurd (List.cons.inj h).2 (hs _ _)
  | d :: e :: r, _ => exact Nat.le_add_left ..

/-- The quotes that open a text block stand in front of what is behind it. -/
theorem two_le_of_afterTextBlock? (h : afterTextBlock? ((r ++ s).drop 2) = some (rest ++ s)) :
    2 ≤ r.length := by
  obtain ⟨content, -, he⟩ := afterTextBlock?_eq_some.1 h
  have hlen := congrArg List.length he
  simp only [List.length_drop, List.length_append, List.length_cons] at hlen
  omega

/-- A literal that ends in front of `s` ends in front of `s'`. -/
theorem literalBefore_behind {fault : Malformed} {o o' : Option (List Char)}
    (ho : o = some (rest ++ s) → o' = some (rest ++ s'))
    (h : literalBefore fault o = .ok (t, rest ++ s)) :
    literalBefore fault o' = .ok (t, rest ++ s') := by
  have he := eq_some_of_literalBefore h
  rw [he] at h
  cases h
  rw [ho he, literalBefore]

/-- A blank, comment or token is read in the same way if what stands behind it starts in the same
way. -/
theorem step_behind (hs : SameFront s s') (h : step c (r ++ s) = .ok (t, rest ++ s)) :
    step c (r ++ s') = .ok (t, rest ++ s') := by
  have hslash := hs.head?_append (x := '/') (r := r) (by decide)
  have hstar := hs.head?_append (x := '*') (r := r) (by decide)
  have hcolon := hs.head?_append (x := ':') (r := r) (by decide)
  have hdots := hs.take_append (x := '.') (r := r) (by decide) (.inr (hs.ne (by decide)))
  rw [step] at h ⊢
  split at h
  · next hc =>
    obtain ⟨rfl, rfl⟩ : none = t ∧ r = rest := by simpa using h
    rw [if_pos hc]
  next hspace =>
  rw [if_neg hspace]
  split at h
  · next hc =>
    obtain ⟨rfl, hd⟩ := Prod.mk.inj (Except.ok.inj h)
    rw [if_pos ⟨hc.1, hslash.1 hc.2⟩, dropWhile_behind (dropWhile_newline hs) hd]
  next hline =>
  rw [if_neg fun hc => hline ⟨hc.1, hslash.2 hc.2⟩]
  split at h
  · next hc =>
    rw [if_pos ⟨hc.1, hstar.1 hc.2⟩]
    split at h
    · next hb =>
      obtain ⟨rfl, rfl⟩ := Prod.mk.inj (Except.ok.inj h)
      have hr := ne_nil_of_head? (by decide) (hs.ne (by decide)) hc.2
      rw [List.tail_append_of_ne_nil hr] at hb ⊢
      rw [afterBlockComment?_behind s' hb]
    · cases h
  next hblock =>
  rw [if_neg fun hc => hblock ⟨hc.1, hstar.2 hc.2⟩]
  split at h
  · next hc =>
    have hlen := two_le_of_afterTextBlock? (eq_some_of_literalBefore h)
    rw [List.take_append_of_le_length hlen] at hc ⊢
    rw [List.drop_append_of_le_length hlen] at h ⊢
    rw [if_pos hc]
    exact literalBefore_behind (afterTextBlock?_behind s') h
  next htext =>
  split at h
  · next hc =>
    have hr := ne_nil_of_afterQuote? (by decide) (by decide) (eq_some_of_literalBefore h)
    have hquotes := hs.take_append (x := '"') (by decide) (.inl hr)
    rw [if_neg fun hc => htext ⟨hc.1, hquotes.2 hc.2⟩, if_pos hc]
    exact literalBefore_behind (afterQuote?_behind s' (by decide) (by decide)) h
  next hstring =>
  rw [if_neg fun hc => hstring hc.1, if_neg hstring]
  split at h
  · next hc =>
    rw [if_pos hc]
    exact literalBefore_behind (afterQuote?_behind s' (by decide) (by decide)) h
  next hchar =>
  rw [if_neg hchar]
  split at h
  · next hc =>
    obtain ⟨rfl, hd⟩ := Prod.mk.inj (Except.ok.inj h)
    rw [hs.afterNumber_append] at hd
    rw [if_pos hc, hs.symm.afterNumber_append, List.append_cancel_right hd]
  next hdigit =>
  rw [if_neg hdigit]
  split at h
  · next hc =>
    obtain ⟨rfl, hd⟩ := Prod.mk.inj (Except.ok.inj h)
    rw [if_pos hc, hs.takeWhile_append, dropWhile_behind (fun _ => hs.symm.dropWhile_eq) hd]
  next hword =>
  rw [if_neg hword]
  split at h
  · next hc =>
    obtain ⟨rfl, hd⟩ := Prod.mk.inj (Except.ok.inj h)
    rw [if_pos ⟨hc.1, hdots.1 hc.2⟩]
    have hlen := two_le_of_take (hs.ne (by decide)) hc.2
    rw [List.drop_append_of_le_length hlen] at hd ⊢
    rw [List.append_cancel_right hd]
  next hellipsis =>
  rw [if_neg fun hc => hellipsis ⟨hc.1, hdots.2 hc.2⟩]
  split at h
  · next hc =>
    obtain ⟨rfl, hd⟩ := Prod.mk.inj (Except.ok.inj h)
    rw [if_pos ⟨hc.1, hcolon.1 hc.2⟩]
    have hr := ne_nil_of_head? (by decide) (hs.ne (by decide)) hc.2
    rw [List.tail_append_of_ne_nil hr] at hd ⊢
    rw [List.append_cancel_right hd]
  next hmark =>
  rw [if_neg fun hc => hmark ⟨hc.1, hcolon.2 hc.2⟩]
  obtain ⟨rfl, rfl⟩ : some (.mark c) = t ∧ r = rest := by simpa using h
  rfl

end

/-! ## Texts that are read up to a place -/

/-- Reading a text in front of `s` gives the tokens and comes to the place where `s` starts. -/
inductive ReadsUpTo (s : List Char) : List Char → List Token → Prop
  | here : ReadsUpTo s [] []
  | step {c : Char} {r rest : List Char} {t : Option Token} {ts : List Token} :
    step c (r ++ s) = .ok (t, rest ++ s) → ReadsUpTo s rest ts →
    ReadsUpTo s (c :: r) (t.toList ++ ts)

section
variable {s s' a b content content' : List Char} {ta tb : List Token}

/-- Behind a text that is read up to some place stands what is read from there. -/
theorem ReadsUpTo.tokens_append (h : ReadsUpTo s a ta) :
    tokens (a ++ s) = (tokens s).map (ta ++ ·) := by
  induction h with
  | here => exact (map_nil_append _).symm
  | step hs _ ih => rw [List.cons_append, tokens_cons hs, ih, map_append_map]

/-- A text that is read up to `s` is read up to every text with the same front. -/
theorem ReadsUpTo.behind (hs : SameFront s s') (h : ReadsUpTo s a ta) : ReadsUpTo s' a ta := by
  induction h with
  | here => exact .here
  | step hstep _ ih => exact .step (step_behind hs hstep) ih

/-- A text with tokens is read up to its end. -/
theorem readsUpTo_of_tokens (h : tokens a = .ok ta) : ReadsUpTo [] a ta := by
  fun_induction tokens a generalizing ta with
  | case1 => cases h; exact .here
  | case2 => cases h
  | case3 c r t rest hs _ ih =>
    obtain ⟨ts, hts, rfl⟩ := eq_ok_of_map h
    exact .step (by simpa using hs) (ih hts)

/-- The end of a line has no token. -/
theorem tokens_newline : tokens ('\n' :: b) = tokens b :=
  (tokens_cons (o := none) rfl).trans (map_nil_append _)

/-- A line end separates what stands in front of it from what stands behind it. -/
theorem tokens_append_newline (h : tokens a = .ok ta) :
    tokens (a ++ '\n' :: b) = (tokens b).map (ta ++ ·) := by
  have hfront : SameFront [] ('\n' :: b) := ⟨rfl, List.mem_cons_self⟩
  rw [((readsUpTo_of_tokens h).behind hfront).tokens_append, tokens_newline]

end

/-! ## Comments and literals -/

/-- What encloses a content that is not kept. -/
inductive Enclosure
  | lineComment
  | blockComment
  | string
  | char
  | textBlock

namespace Enclosure

def opening : Enclosure → List Char
  | lineComment => ['/', '/']
  | blockComment => ['/', '*']
  | string => ['"']
  | char => ['\'']
  | textBlock => ['"', '"', '"']

def closing : Enclosure → List Char
  | lineComment => []
  | blockComment => ['*', '/']
  | string => ['"']
  | char => ['\'']
  | textBlock => ['"', '"', '"']

/-- The token that is read for it. -/
def token? : Enclosure → Option Token
  | lineComment | blockComment => none
  | string | char | textBlock => some .literal

/-- The contents that do not end it. -/
def Allows : Enclosure → List Char → Prop
  | lineComment, content => '\n' ∉ content
  | blockComment, content => ¬['*', '/'] <:+: content
  | string, content => LineContent '"' content
  | char, content => LineContent '\'' content
  | textBlock, content => BlockContent content

/-- It ends in front of `b`: a line comment goes on to the end of its line, and an empty string with
a quote behind it would open a text block. -/
def EndsBefore : Enclosure → List Char → List Char → Prop
  | lineComment, _, b => front b = '\n'
  | string, content, b => content = [] → front b ≠ '"'
  | _, _, _ => True

/-- A content between its delimiters. -/
def write (k : Enclosure) (content : List Char) : List Char := k.opening ++ content ++ k.closing

section
variable {k : Enclosure} {content content' b : List Char}

/-- One step of the lexer reads up to the place where it ends. -/
theorem readsUpTo_of_step {c : Char} {r : List Char} {t : Option Token}
    (h : Java.step c (r ++ b) = .ok (t, b)) : ReadsUpTo b (c :: r) t.toList := by
  have hs : Java.step c (r ++ b) = .ok (t, [] ++ b) := h
  have hr := ReadsUpTo.step hs .here
  rwa [List.append_nil] at hr

/-- A line comment is passed over in one step, up to the end of its line. -/
theorem lineComment_step (hc : '\n' ∉ content) (hb : front b = '\n') :
    Java.step '/' ('/' :: content ++ b) = .ok (none, b) := by
  have hcontent : ∀ d ∈ '/' :: content, decide (d ≠ '\n') = true := by
    intro d hd
    rcases List.mem_cons.1 hd with rfl | hd
    · decide
    · exact decide_eq_true (ne_of_mem_of_not_mem hd hc)
  have hd : b.dropWhile (· ≠ '\n') = b := by
    cases b with
    | nil => rfl
    | cons d b => exact List.dropWhile_cons_of_neg (by simpa [front] using hb)
  rw [Java.step, if_neg (by decide), if_pos ⟨rfl, rfl⟩, List.dropWhile_append_of_pos hcontent, hd]

/-- A block comment is passed over in one step. -/
theorem blockComment_step (hc : ¬['*', '/'] <:+: content) :
    Java.step '/' ('*' :: content ++ ['*', '/'] ++ b) = .ok (none, b) := by
  rw [Java.step, if_neg (by decide), if_neg, if_pos ⟨rfl, rfl⟩]
  · simp [afterBlockComment?_append hc]
  · simp

/-- A string is one literal, whatever it holds. -/
theorem string_step (hc : LineContent '"' content) (hb : content = [] → front b ≠ '"') :
    Java.step '"' (content ++ ['"'] ++ b) = .ok (some .literal, b) := by
  have htwo : (content ++ '"' :: b).take 2 ≠ ['"', '"'] := by
    intro he
    cases hc with
    | nil =>
      cases b with
      | nil => cases he
      | cons d b => exact hb rfl (List.cons.inj (List.cons.inj he).2).1
    | escaped => cases (List.cons.inj he).1
    | plain _ hd => exact hd (List.cons.inj he).1
  rw [List.append_assoc, List.singleton_append, Java.step, if_neg (by decide), if_neg (by simp),
    if_neg (by simp), if_neg (fun h => htwo h.2), if_pos rfl,
    hc.afterQuote?_append (by decide) (by decide), literalBefore]

/-- A character literal is one literal, whatever it holds. -/
theorem char_step (hc : LineContent '\'' content) :
    Java.step '\'' (content ++ ['\''] ++ b) = .ok (some .literal, b) := by
  rw [List.append_assoc, List.singleton_append, Java.step, if_neg (by decide), if_neg (by simp),
    if_neg (by simp), if_neg (by simp), if_neg (by decide), if_pos rfl,
    hc.afterQuote?_append (by decide) (by decide), literalBefore]

/-- A text block is one literal, whatever it holds. -/
theorem textBlock_step (hc : BlockContent content) :
    Java.step '"' (['"', '"'] ++ content ++ ['"', '"', '"'] ++ b) = .ok (some .literal, b) := by
  have hdrop : (['"', '"'] ++ content ++ ['"', '"', '"'] ++ b).drop 2 =
      content ++ '"' :: '"' :: '"' :: b := by
    simp
  rw [Java.step, if_neg (by decide), if_neg (by simp), if_neg (by simp), if_pos ⟨rfl, rfl⟩, hdrop,
    hc.afterTextBlock?_append, literalBefore]

/-- Whatever it holds, a comment is read as nothing and a literal as one token. -/
theorem readsUpTo (hc : k.Allows content) (hb : k.EndsBefore content b) :
    ReadsUpTo b (k.write content) k.token?.toList := by
  cases k with
  | lineComment =>
    have hw : lineComment.write content = '/' :: '/' :: content := List.append_nil _
    rw [hw]
    exact readsUpTo_of_step (lineComment_step hc hb)
  | blockComment => exact readsUpTo_of_step (blockComment_step hc)
  | string => exact readsUpTo_of_step (string_step hc hb)
  | char => exact readsUpTo_of_step (char_step hc)
  | textBlock => exact readsUpTo_of_step (textBlock_step hc)

/-- An enclosure starts in the same way, whatever it holds. -/
theorem sameFront_write : SameFront (k.write content ++ b) (k.write content' ++ b) := by
  cases k <;> exact ⟨rfl, by simp [front, write, opening]⟩

end

end Enclosure

/-! ## Sources that differ in contents -/

/-- The texts differ only in what their comments and literals hold. -/
inductive SameBesideContents : List Char → List Char → Prop
  | refl (s : List Char) : SameBesideContents s s
  | content {k : Enclosure} {a b content content' : List Char} {ta : List Token} :
    ReadsUpTo (k.write content ++ b) a ta →
    k.Allows content → k.EndsBefore content b → k.Allows content' → k.EndsBefore content' b →
    SameBesideContents (a ++ k.write content ++ b) (a ++ k.write content' ++ b)
  | trans {s t u : List Char} :
    SameBesideContents s t → SameBesideContents t u → SameBesideContents s u

section
variable {k : Enclosure} {a b s t content : List Char} {ta : List Token}

/-- A comment or literal at a place that is read up to. -/
theorem ReadsUpTo.tokens_write (ha : ReadsUpTo (k.write content ++ b) a ta)
    (hc : k.Allows content) (hb : k.EndsBefore content b) :
    tokens (a ++ k.write content ++ b) = (tokens b).map (ta ++ k.token?.toList ++ ·) := by
  rw [List.append_assoc, ha.tokens_append, (k.readsUpTo hc hb).tokens_append, map_append_map]

/-- Texts that differ in contents of enclosures only have the same tokens, or the same fault. -/
theorem SameBesideContents.tokens_eq (h : SameBesideContents s t) : tokens s = tokens t := by
  induction h with
  | refl => rfl
  | content ha hc hb hc' hb' =>
    rw [ha.tokens_write hc hb, (ha.behind Enclosure.sameFront_write).tokens_write hc' hb']
  | trans _ _ ih ih' => exact ih.trans ih'

/-- An enclosure on a line of its own adds its token, whatever it holds. -/
theorem tokens_newline_write (ha : tokens a = .ok ta) (hc : k.Allows content) :
    tokens (a ++ '\n' :: (k.write content ++ '\n' :: b)) =
      (tokens b).map (ta ++ k.token?.toList ++ ·) := by
  have hb : k.EndsBefore content ('\n' :: b) := by
    cases k with
    | lineComment => rfl
    | string => exact fun _ => (by decide : '\n' ≠ '"')
    | _ => trivial
  rw [tokens_append_newline ha, (k.readsUpTo hc hb).tokens_append, tokens_newline, map_append_map]

end

/-- What comments and literals hold does not count: behind a line end the tokens of a text are those
it has alone, a comment in between adds none, a literal adds one, and sources that differ only in
such contents have the same record or the same fault. -/
theorem read_whatever_enclosed :
    (∀ a ta b, tokens a = .ok ta → tokens (a ++ '\n' :: b) = (tokens b).map (ta ++ ·)) ∧
    (∀ a ta b, ∀ k : Enclosure, ∀ content, tokens a = .ok ta → k.Allows content →
      tokens (a ++ '\n' :: (k.write content ++ '\n' :: b)) =
        (tokens b).map (ta ++ k.token?.toList ++ ·)) ∧
    ∀ text text' path fqn kind, SameBesideContents text.toList text'.toList →
      ClassRecord.read text path fqn kind = ClassRecord.read text' path fqn kind := by
  refine ⟨fun a ta b => tokens_append_newline, fun a ta b k content => tokens_newline_write, ?_⟩
  intro text text' path fqn kind h
  rw [ClassRecord.read, ClassRecord.read, readParts, readParts, h.tokens_eq]

/-- The start of a class with a field that is given a value. -/
def fieldStart : String := "class C \x7b String s ="

/-- What follows the field's value. -/
def fieldEnd : String := "; \x7d"

/-- The tokens in front of the literal that the next statements are about. -/
theorem tokens_fieldStart :
    tokens fieldStart.toList =
      .ok [.word "class", .word "C", .mark '{', .word "String", .word "s", .mark '='] := by
  have hv : (tokens fieldStart.toList).toOption =
      some [.word "class", .word "C", .mark '{', .word "String", .word "s", .mark '='] := by
    decide +kernel
  exact eq_ok_of_toOption hv

/-- Two slashes and a quote behind a backslash are content of a string. -/
theorem read_whatever_enclosed_fieldStart :
    tokens (fieldStart.toList ++
        '\n' :: (Enclosure.string.write ['/', '/', '\\', '"'] ++ '\n' :: fieldEnd.toList)) =
      (tokens fieldEnd.toList).map ([.word "class", .word "C", .mark '{', .word "String",
        .word "s", .mark '=', .literal] ++ ·) := by
  have hc : LineContent '"' ['/', '/', '\\', '"'] :=
    .plain (by decide) (by decide) (by decide)
      (.plain (by decide) (by decide) (by decide) (.escaped .nil))
  exact read_whatever_enclosed.2.1 _ _ _ .string _ tokens_fieldStart hc

/-- A backslash alone has no quote and no line end that would have to be escaped, and yet it is not
the content of a string: it escapes the quote behind it. -/
theorem exists_backslash_and_unterminated :
    ∃ content, '"' ∉ content ∧ '\n' ∉ content ∧
      (∃ ta, tokens fieldStart.toList = .ok ta) ∧ (∃ tb, tokens fieldEnd.toList = .ok tb) ∧
      tokens (fieldStart.toList ++
        '\n' :: (Enclosure.string.write content ++ '\n' :: fieldEnd.toList)) =
          .error .unterminatedString := by
  have hend : (tokens fieldEnd.toList).toOption = some [.mark ';', .mark '}'] := by decide +kernel
  have hstep : step '"' ('\\' :: '"' :: '\n' :: fieldEnd.toList) = .error .unterminatedString :=
    rfl
  refine ⟨['\\'], by decide, by decide, ⟨_, tokens_fieldStart⟩, ⟨_, eq_ok_of_toOption hend⟩, ?_⟩
  rw [tokens_append_newline tokens_fieldStart]
  exact congrArg (Except.map _) (tokens_error hstep)

end TestImpact.Java
