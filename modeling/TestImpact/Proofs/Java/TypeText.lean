import TestImpact.Proofs.Java.TokenText
import TestImpact.Proofs.Java.TypeExpr

/-!
# Types read from their texts

The text of a type has no blanks, and its names are read back from the text alone. Main statements:
the head that is read is the name of the type (`typeHead_raw`); the arguments that are read are
those that each bound and name is read as (`typeArguments_raw`); and an argument is read as it is
written exactly if it stands without a bound and has a single segment of ASCII characters
(`namesRead_eq_iff`).
-/

namespace TestImpact.Java

/-- The characters of a token list without blanks between the tokens. -/
def charsOf (ts : List Token) : List Char := ts.flatMap fun t => t.text.toList

/-- A character that ends a dotted name. -/
def EndsName (c : Char) : Prop := isNamePart c = false ∧ c ≠ '.'

/-- The names that are read off a bound and a name. -/
def namesRead (m : Bound × TypeName) : List String :=
  (lastSegments [] (m.1.word ++ m.2.text).toList).filter (!isKeyword ·)

/-- The names that a bound and a name are written with; the word of a primitive type is none. -/
def namesWritten (m : Bound × TypeName) : List String :=
  match m.2 with
  | .dotted n => [n.text]
  | .primitive _ => []

/-- No bound, and a single segment of ASCII characters or the word of a primitive type. -/
def IsPlain (m : Bound × TypeName) : Prop :=
  m.1 = .exact ∧
    match m.2 with
    | .dotted n => n.rest = [] ∧ ∀ c ∈ n.first.text.toList, isNamePart c = true
    | .primitive _ => True

section
variable {c d : Char} {seen cs r w : List Char} {ts us : List Token}

@[simp] theorem charsOf_nil : charsOf [] = [] := rfl

@[simp] theorem charsOf_cons {t : Token} : charsOf (t :: ts) = t.text.toList ++ charsOf ts := rfl

@[simp] theorem charsOf_append : charsOf (ts ++ us) = charsOf ts ++ charsOf us :=
  List.flatMap_append

/-- The characters of the joined text are those of the tokens one after another. -/
theorem toList_joinTokens : (joinTokens ts).toList = charsOf ts := by
  induction ts with
  | nil => rfl
  | cons t ts ih =>
    rw [joinTokens, List.foldr_cons, String.toList_append, charsOf_cons]
    exact congrArg _ ih

/-! ## Characters of names -/

/-- The characters of names are ASCII. -/
theorem toNat_of_isNamePart (hp : isNamePart c = true) : c.toNat < 0x80 := by
  simp only [isNamePart, Char.isAlphanum, Bool.or_eq_true, decide_eq_true_eq] at hp
  rcases hp with ((hp | hp) | rfl) | rfl
  · exact Nat.lt_trans (toNat_of_isAlpha hp).2 (by decide)
  · exact Nat.lt_trans (toNat_of_isDigit hp) (by decide)
  all_goals decide

/-- An ASCII character that starts a word starts a name. -/
theorem isNameStart_of_isWordStart (hs : isWordStart c = true) (hp : isNamePart c = true) :
    isNameStart c = true := by
  rcases Bool.or_eq_true_iff.1 hs with hs | hs
  · exact hs
  · exact absurd (toNat_of_isNamePart hp) (Nat.not_lt.2 (of_decide_eq_true hs))

/-- What is no character of a name starts none. -/
theorem isNameStart_of_isNamePart (h : isNamePart c = false) : isNameStart c = false :=
  Bool.eq_false_iff.2 fun hs => by simp [isNamePart_of_isNameStart hs] at h

/-- A character of a name is a dot, or belongs to a word and is no blank. -/
theorem TypeName.mem_toList {n : TypeName} (hc : c ∈ n.text.toList) :
    c = '.' ∨ isWordPart c = true ∧ isBlank c = false := by
  rw [TypeName.text, toList_joinTokens] at hc
  cases n with
  | dotted n =>
    rw [TypeName.tokens, DottedName.tokens, charsOf_cons, List.mem_append] at hc
    rcases hc with hc | hc
    · exact .inr (Identifier.isWordPart hc)
    · obtain ⟨t, ht, hc⟩ := List.mem_flatMap.1 hc
      obtain ⟨i, -, ht⟩ := List.mem_flatMap.1 ht
      rcases List.mem_cons.1 ht with rfl | ht
      · exact .inl (List.mem_singleton.1 hc)
      · rw [List.mem_singleton.1 ht] at hc
        exact .inr (Identifier.isWordPart hc)
  | primitive p =>
    have hp : ∀ w ∈ primitives, w.toList.all (fun c => isWordPart c && !isBlank c) = true := by
      decide
    have hv := p.valid
    rw [Bool.and_eq_true] at hv
    have hc : c ∈ p.word.toList := by simpa [TypeName.tokens, Token.text] using hc
    have hall := List.all_eq_true.1 (hp p.word (List.contains_iff_mem.1 hv.1)) c hc
    rw [Bool.and_eq_true, Bool.not_eq_true'] at hall
    exact .inr hall

/-- What ends in an identifier ends in a character of a word. -/
theorem Identifier.getLast? (i : Identifier) (cs : List Char) :
    ∃ c, (cs ++ i.text.toList).getLast? = some c ∧ Java.isWordPart c = true := by
  have hne : cs ++ i.text.toList ≠ [] := List.append_ne_nil_of_right_ne_nil cs i.toList_ne_nil
  refine ⟨_, List.getLast?_eq_some_getLast hne, (isWordPart (i := i) ?_).1⟩
  rw [List.getLast_append_of_ne_nil _ i.toList_ne_nil]
  exact List.getLast_mem _

/-- A name ends in a character of a word. -/
theorem TypeName.getLast? (n : TypeName) :
    ∃ c, n.text.toList.getLast? = some c ∧ isWordPart c = true := by
  rw [TypeName.text, toList_joinTokens]
  cases n with
  | dotted n =>
    obtain ⟨first, rest⟩ := n
    show ∃ c, (first.text.toList ++ charsOf (rest.flatMap _)).getLast? = some c ∧ _
    cases rest.eq_nil_or_concat with
    | inl h =>
      subst h
      simpa using first.getLast? []
    | inr h =>
      obtain ⟨rest, i, rfl⟩ := h
      have := i.getLast? (first.text.toList ++
        (charsOf (rest.flatMap fun i => [.mark '.', .word i.text]) ++ ['.']))
      simpa [Token.text] using this
  | primitive p =>
    have hp : ∀ w ∈ primitives, w.toList.getLast?.any isWordPart = true := by decide
    have hv := p.valid
    rw [Bool.and_eq_true] at hv
    simpa [TypeName.tokens, Token.text] using
      (Option.any_eq_true _ _).1 (hp p.word (List.contains_iff_mem.1 hv.1))

/-! ## The head of a type -/

/-- Without a dot at the end, no ellipsis is dropped. -/
theorem dropEllipses_of_head (h : cs.head? ≠ some '.') : dropEllipses cs = cs := by
  rw [dropEllipses]
  intro r hr
  rw [hr] at h
  exact h rfl

/-- Without a closing bracket at the end, no brackets are dropped. -/
theorem dropBrackets_of_head (h : cs.head? ≠ some ']') : dropBrackets cs = cs := by
  rw [dropBrackets]
  intro r hr
  rw [hr] at h
  exact h rfl

/-- One more pair of brackets may as well stand behind the others. -/
theorem dimTokens_succ (n : Nat) : dimTokens (n + 1) = dimTokens n ++ [.mark '[', .mark ']'] := by
  induction n with
  | zero => rfl
  | succ n ih => exact congrArg (fun ts => .mark '[' :: .mark ']' :: ts) ih

/-- Array brackets behind a name are dropped. -/
theorem dropBrackets_dims (n : Nat) (h : cs.head? ≠ some ']') :
    dropBrackets ((charsOf (dimTokens n)).reverse ++ cs) = cs := by
  induction n with
  | zero => exact dropBrackets_of_head h
  | succ n ih =>
    rw [dimTokens_succ, charsOf_append, List.reverse_append, List.append_assoc]
    exact ih

/-- Array brackets stop the search for ellipses. -/
theorem dropEllipses_dims (n : Nat) (h : cs.head? ≠ some '.') :
    dropEllipses ((charsOf (dimTokens n)).reverse ++ cs) =
      (charsOf (dimTokens n)).reverse ++ cs := by
  refine dropEllipses_of_head ?_
  cases n with
  | zero => exact h
  | succ n =>
    rw [dimTokens_succ, charsOf_append, List.reverse_append]
    exact fun hd => absurd (Option.some.inj hd) (by decide)

/-- Array brackets have no angle bracket among them. -/
theorem ne_of_mem_dims {n : Nat} (hc : c ∈ charsOf (dimTokens n)) : (c ≠ '<' : Bool) = true := by
  induction n with
  | zero => cases hc
  | succ n ih =>
    rcases List.mem_cons.1 hc with rfl | hc
    · decide
    rcases List.mem_cons.1 hc with rfl | hc
    · decide
    exact ih hc

/-- The name of a type has no angle bracket in it. -/
theorem TypeName.ne_of_mem {n : TypeName} (hc : c ∈ n.text.toList) : (c ≠ '<' : Bool) = true := by
  rcases TypeName.mem_toList hc with rfl | ⟨hc, -⟩
  · decide
  · simpa using fun he : c = '<' => absurd hc (by rw [he]; decide)

/-- A text without blanks has none to remove. -/
theorem trimBlanks_of_forall (h : ∀ c ∈ cs, isBlank c = false) : trimBlanks cs = cs := by
  have hd : ∀ ds : List Char, (∀ c ∈ ds, isBlank c = false) → ds.dropWhile isBlank = ds := by
    intro ds hds
    cases ds with
    | nil => rfl
    | cons d ds => rw [List.dropWhile_cons_of_neg (by simp [hds d])]
  rw [trimBlanks, hd cs h, hd cs.reverse (by simpa using h), List.reverse_reverse]

/-- A raw type is its name, then its arguments if there are any, then its array brackets. -/
theorem TypeExpr.toList_raw (t : TypeExpr) :
    ∃ args dims, t.raw.toList = t.name.text.toList ++ (args ++ charsOf (dimTokens dims)) ∧
      (args = [] ∨ args.head? = some '<') := by
  obtain ⟨name, args, dims⟩ := t
  refine ⟨charsOf (argumentTokens args), dims, ?_, ?_⟩
  · rw [raw, TypeExpr.tokens, toList_joinTokens, TypeExpr.name, TypeName.text, toList_joinTokens,
      charsOf_append, charsOf_append]
  · cases args with
    | nil => exact .inl rfl
    | cons a as => exact .inr rfl

/-- In front of the type arguments stand the name and, without arguments, the array brackets. -/
theorem TypeExpr.takeWhile_raw (t : TypeExpr) :
    ∃ n, t.raw.toList.takeWhile (· ≠ '<') = t.name.text.toList ++ charsOf (dimTokens n) := by
  obtain ⟨args, dims, hr, ha⟩ := t.toList_raw
  rw [hr, List.takeWhile_append_of_pos fun _ => TypeName.ne_of_mem]
  rcases ha with rfl | ha
  · refine ⟨dims, ?_⟩
    rw [List.nil_append, ← List.append_nil (charsOf _),
      List.takeWhile_append_of_pos fun _ => ne_of_mem_dims]
    rfl
  · obtain ⟨r, rfl⟩ := List.head?_eq_some_iff.1 ha
    exact ⟨0, by simp [dimTokens]⟩

/-- The head of a type is its name. -/
theorem typeHead_raw (t : TypeExpr) : typeHead t.raw = t.name.text := by
  obtain ⟨n, hf⟩ := t.takeWhile_raw
  obtain ⟨c, hl, hc⟩ := t.name.getLast?
  have hhead : ∀ d, isWordPart d = false → t.name.text.toList.reverse.head? ≠ some d := by
    intro d hd he
    rw [List.head?_reverse, hl] at he
    rw [← Option.some.inj he, hc] at hd
    cases hd
  have hb : ∀ c ∈ t.name.text.toList, isBlank c = false := by
    intro c hc
    rcases TypeName.mem_toList hc with rfl | ⟨-, hb⟩
    · decide
    · exact hb
  rw [typeHead, hf, List.reverse_append, dropEllipses_dims n (hhead '.' (by decide)),
    dropBrackets_dims n (hhead ']' (by decide)), List.reverse_reverse, trimBlanks_of_forall hb,
    String.ofList_toList]

/-! ## The arguments of a type -/

/-- A character that ends a name ends what is read of it. -/
theorem lastSegments_append_cons (hd : EndsName d) :
    lastSegments seen (w ++ d :: r) = lastSegments seen w ++ lastSegments [] r := by
  have hs : isNameStart d = false := isNameStart_of_isNamePart hd.1
  induction w generalizing seen with
  | nil =>
    cases seen with
    | nil => simp [lastSegments, hs]
    | cons c seen => simp [lastSegments, hd.1, hd.2]
  | cons c w ih =>
    have hh : (w ++ d :: r).head?.any isNameStart = w.head?.any isNameStart := by
      cases w with
      | nil => simp [hs]
      | cons => rfl
    cases seen with
    | nil =>
      simp only [List.cons_append, lastSegments, List.isEmpty_nil, if_true]
      split <;> exact ih
    | cons e seen =>
      simp only [List.cons_append, lastSegments, List.isEmpty_cons, Bool.false_eq_true, if_false,
        hh]
      split
      · exact ih
      · split
        · exact ih
        · rw [ih, List.cons_append]

/-- What follows a name: nothing, or a character that ends it. -/
def EndsFront (r : List Char) : Prop := ∀ d, r.head? = some d → EndsName d

/-- Names are read apart on both sides of a character that ends a name. -/
theorem lastSegments_append (hr : EndsFront r) :
    lastSegments seen (w ++ r) = lastSegments seen w ++ lastSegments [] r := by
  cases r with
  | nil => simp [lastSegments]
  | cons d r =>
    have hs : lastSegments [] (d :: r) = lastSegments [] r :=
      lastSegments_append_cons (w := []) (hr d rfl)
    rw [lastSegments_append_cons (hr d rfl), hs]

/-- A character that ends a name is passed over. -/
theorem lastSegments_skip (hd : EndsName d) : lastSegments [] (d :: r) = lastSegments [] r :=
  lastSegments_append_cons (w := []) hd

/-- The marks of a type end a name. -/
theorem endsName_mark (h : c ∈ ['<', '>', '?', ',', '[', ']']) : EndsName c := by
  have hs : ∀ c ∈ ['<', '>', '?', ',', '[', ']'], isNamePart c = false ∧ c ≠ '.' := by
    simp [isNamePart]
  exact hs c h

/-- Array brackets are passed over. -/
theorem lastSegments_dims (n : Nat) :
    lastSegments [] (charsOf (dimTokens n) ++ r) = lastSegments [] r := by
  induction n with
  | zero => rfl
  | succ n ih =>
    show lastSegments [] ('[' :: ']' :: (charsOf (dimTokens n) ++ r)) = _
    rw [lastSegments_skip (endsName_mark (by decide)),
      lastSegments_skip (endsName_mark (by decide)), ih]

/-- Behind an argument stands a comma or the closing angle bracket. -/
theorem endsFront_more (args : List TypeArgument) :
    EndsFront (charsOf (moreArguments args) ++ r) := by
  intro d hd
  cases args with
  | nil => cases hd; exact endsName_mark (by decide)
  | cons a args => cases hd; exact endsName_mark (by decide)

/-- Behind a name stands a mark, or what follows the type. -/
theorem endsFront_arguments (args : List TypeArgument) (n : Nat) (hr : EndsFront r) :
    EndsFront (charsOf (argumentTokens args) ++ (charsOf (dimTokens n) ++ r)) := by
  intro d hd
  cases args with
  | nil =>
    cases n with
    | zero => exact hr d hd
    | succ n => cases hd; exact endsName_mark (by decide)
  | cons a args => cases hd; exact endsName_mark (by decide)

end

/-- What is read of bounds and names one after another. -/
def segmentsOf (ms : List (Bound × TypeName)) : List String :=
  ms.flatMap fun m => lastSegments [] (m.1.word ++ m.2.text).toList

/-- The bounds and names of two lists are read one after another. -/
theorem segmentsOf_append (ms ns : List (Bound × TypeName)) :
    segmentsOf (ms ++ ns) = segmentsOf ms ++ segmentsOf ns :=
  List.flatMap_append

/-- The first bound and name are read in front of the others. -/
theorem segmentsOf_cons (b : Bound) (n : TypeName) (ms : List (Bound × TypeName)) :
    segmentsOf ((b, n) :: ms) =
      lastSegments [] (b.word.toList ++ n.text.toList) ++ segmentsOf ms := by
  rw [segmentsOf, List.flatMap_cons, String.toList_append]
  rfl

/-- The question mark of a bound is passed over, and its word is not. -/
theorem lastSegments_bound {cs : List Char} (b : Bound) :
    lastSegments [] (charsOf b.tokens ++ cs) = lastSegments [] (b.word.toList ++ cs) := by
  cases b with
  | exact => rfl
  | upper | lower => exact lastSegments_skip (endsName_mark (by decide))

mutual

/-- Behind the characters `w` of a bound, a type is read as its name and its arguments. -/
theorem TypeExpr.lastSegments_tokens {w r : List Char} (hr : EndsFront r) : ∀ t : TypeExpr,
    lastSegments [] (w ++ (charsOf t.tokens ++ r)) =
      lastSegments [] (w ++ t.name.text.toList) ++ (segmentsOf t.mentions ++ lastSegments [] r)
  | .mk name args dims => by
    rw [TypeExpr.tokens, charsOf_append, charsOf_append, List.append_assoc, List.append_assoc,
      ← List.append_assoc w, lastSegments_append (endsFront_arguments args dims hr),
      lastSegments_arguments, lastSegments_dims, TypeExpr.name, TypeName.text, toList_joinTokens,
      TypeExpr.mentions]

/-- An argument is read as its bound, its name and its own arguments. -/
theorem TypeArgument.lastSegments_tokens {r : List Char} (hr : EndsFront r) : ∀ a : TypeArgument,
    lastSegments [] (charsOf a.tokens ++ r) = segmentsOf a.mentions ++ lastSegments [] r
  | .wildcard => by
    rw [TypeArgument.tokens, TypeArgument.mentions]
    exact lastSegments_skip (endsName_mark (by decide))
  | .type bound t => by
    rw [TypeArgument.tokens, TypeArgument.mentions, charsOf_append, List.append_assoc,
      lastSegments_bound, t.lastSegments_tokens hr, segmentsOf_cons, List.append_assoc]

/-- A list of arguments is read as what each of them mentions. -/
theorem lastSegments_arguments {r : List Char} : ∀ args : List TypeArgument,
    lastSegments [] (charsOf (argumentTokens args) ++ r) =
      segmentsOf (argumentMentions args) ++ lastSegments [] r
  | [] => by rw [argumentTokens, argumentMentions]; rfl
  | a :: as => by
    rw [argumentTokens, argumentMentions, segmentsOf_append, charsOf_cons, charsOf_append]
    show lastSegments [] ('<' :: (charsOf a.tokens ++ charsOf (moreArguments as) ++ r)) = _
    rw [lastSegments_skip (endsName_mark (by decide)), List.append_assoc,
      a.lastSegments_tokens (endsFront_more as), lastSegments_more as, List.append_assoc]

/-- So are the arguments behind the first one. -/
theorem lastSegments_more {r : List Char} : ∀ args : List TypeArgument,
    lastSegments [] (charsOf (moreArguments args) ++ r) =
      segmentsOf (argumentMentions args) ++ lastSegments [] r
  | [] => by
    rw [moreArguments, argumentMentions]
    exact lastSegments_skip (endsName_mark (by decide))
  | a :: as => by
    rw [moreArguments, argumentMentions, segmentsOf_append, charsOf_cons, charsOf_append]
    show lastSegments [] (',' :: (charsOf a.tokens ++ charsOf (moreArguments as) ++ r)) = _
    rw [lastSegments_skip (endsName_mark (by decide)), List.append_assoc,
      a.lastSegments_tokens (endsFront_more as), lastSegments_more as, List.append_assoc]

end

/-- The arguments of a type are read as what is read of each bound and name. -/
theorem typeArguments_raw (t : TypeExpr) : typeArguments t.raw = t.mentions.flatMap namesRead := by
  obtain ⟨name, args, dims⟩ := t
  have hd : lastSegments [] ((TypeExpr.mk name args dims).raw.toList.dropWhile (· ≠ '<')) =
      segmentsOf (argumentMentions args) := by
    have hn : charsOf name.tokens = name.text.toList := toList_joinTokens.symm
    rw [TypeExpr.raw, TypeExpr.tokens, toList_joinTokens, charsOf_append, charsOf_append, hn,
      List.dropWhile_append_of_pos fun _ => TypeName.ne_of_mem]
    cases args with
    | nil =>
      have hn : (charsOf (dimTokens dims)).dropWhile (· ≠ '<') = [] := by
        rw [← List.append_nil (charsOf _), List.dropWhile_append_of_pos fun _ => ne_of_mem_dims]
        rfl
      rw [argumentTokens, charsOf_nil, List.nil_append, hn]
      rfl
    | cons a as =>
      have hl := lastSegments_arguments (r := charsOf (dimTokens dims) ++ []) (a :: as)
      rw [lastSegments_dims, List.append_nil] at hl
      rw [argumentTokens] at hl ⊢
      exact hl.trans (List.append_nil _)
  rw [typeArguments, hd, segmentsOf, List.filter_flatMap, TypeExpr.mentions]
  rfl

/-! ## Which arguments are read as they are written -/

section
variable {seen cs : List Char}

/-- A single word is read as it is. -/
theorem lastSegments_word (hs : cs.head?.any isNameStart = true)
    (hp : ∀ c ∈ cs, isNamePart c = true) : lastSegments [] cs = [.ofList cs] := by
  have hword : ∀ (cs : List Char) {seen : List Char}, seen ≠ [] →
      (∀ c ∈ cs, isNamePart c = true) →
        lastSegments seen cs = [.ofList (seen.reverse ++ cs)] := by
    intro cs
    induction cs with
    | nil => intro seen hne _; simp [lastSegments, hne]
    | cons c cs ih =>
      intro seen hne hp
      obtain ⟨hc, hp⟩ := List.forall_mem_cons.1 hp
      simp [lastSegments, hne, hc, ih (List.cons_ne_nil c seen) hp]
  cases cs with
  | nil => cases hs
  | cons c cs =>
    have hc : isNameStart c = true := hs
    simp [lastSegments, hc, hword cs (List.cons_ne_nil c []) (List.forall_mem_cons.1 hp).2]

/-- Whatever is read consists of ASCII characters of names. -/
theorem isNamePart_of_mem_lastSegments {s : String} (hs : s ∈ lastSegments seen cs)
    (hp : ∀ c ∈ seen, isNamePart c = true) : ∀ c ∈ s.toList, isNamePart c = true := by
  fun_induction lastSegments seen cs with
  | case1 seen he => cases hs
  | case2 seen he =>
    rw [List.mem_singleton.1 hs]
    simpa using hp
  | case3 seen c r he hc ih =>
    exact ih hs fun d hd => by rw [List.mem_singleton.1 hd]; exact isNamePart_of_isNameStart hc
  | case4 seen c r he hc ih => exact ih hs nofun
  | case5 seen c r he hc ih => exact ih hs (List.forall_mem_cons.2 ⟨hc, hp⟩)
  | case6 seen c r he hc hd ih => exact ih hs nofun
  | case7 seen c r he hc hd ih =>
    rcases List.mem_cons.1 hs with rfl | hs
    · simpa using hp
    · exact ih hs nofun

/-- The word of a bound is glued to a single name behind it. -/
theorem lastSegments_single {i : Identifier} (b : Bound)
    (hp : ∀ c ∈ i.text.toList, isNamePart c = true) :
    lastSegments [] (b.word ++ i.text).toList = [b.word ++ i.text] := by
  obtain ⟨c, r, hi, hc⟩ := i.exists_cons
  have hs : (b.word ++ i.text).toList.head?.any isNameStart = true := by
    rw [String.toList_append, hi]
    cases b with
    | exact => exact isNameStart_of_isWordStart hc (hp c (hi ▸ List.mem_cons_self))
    | upper | lower => rfl
  have hw : ∀ c ∈ b.word.toList, isNamePart c = true :=
    List.all_eq_true.1 (by cases b <;> decide)
  rw [lastSegments_word hs, String.ofList_toList]
  rw [String.toList_append]
  exact fun c hc => (List.mem_append.1 hc).elim (hw c) (hp c)

/-- A dotted name of one segment is written as the segment. -/
theorem DottedName.text_single (i : Identifier) : DottedName.text ⟨i, []⟩ = i.text :=
  String.append_empty

/-- A dotted name without a bound is read as it is written only if it is a single ASCII word. -/
theorem isPlain_of_namesRead {b : Bound} {n : DottedName}
    (h : namesRead (b, .dotted n) = [n.text]) : IsPlain (b, .dotted n) := by
  obtain ⟨first, rest⟩ := n
  have hm : DottedName.text ⟨first, rest⟩ ∈ namesRead (b, .dotted ⟨first, rest⟩) := by
    rw [h]
    exact List.mem_singleton_self _
  have ha := isNamePart_of_mem_lastSegments (List.mem_filter.1 hm).1 nofun
  cases rest with
  | cons i rest =>
    have hd : '.' ∈ (DottedName.text ⟨first, i :: rest⟩).toList := by
      rw [DottedName.text, toList_joinTokens, DottedName.tokens, charsOf_cons]
      exact List.mem_append_right _ List.mem_cons_self
    exact absurd (ha '.' hd) (by decide)
  | nil =>
    rw [DottedName.text_single] at ha h
    have hr : (lastSegments [] (b.word ++ first.text).toList).filter (!isKeyword ·) =
        [first.text] := by
      rw [← h, namesRead, TypeName.text, TypeName.tokens, ← DottedName.text,
        DottedName.text_single]
    rw [lastSegments_single b ha, List.filter_cons, List.filter_nil] at hr
    split at hr
    · refine ⟨?_, rfl, ha⟩
      have hl := congrArg String.length (List.singleton_inj.1 hr)
      rw [String.length_append] at hl
      cases b with
      | exact => rfl
      | upper | lower => exact absurd hl (by simp [Bound.word])
    · cases hr

/-- A bound and a name are read as they are written exactly if they are plain. -/
theorem namesRead_eq_iff (m : Bound × TypeName) : namesRead m = namesWritten m ↔ IsPlain m := by
  obtain ⟨bound, name⟩ := m
  cases name with
  | primitive p =>
    have hp : ∀ w ∈ primitives,
        (lastSegments [] (Bound.exact.word ++ (w ++ "")).toList).filter (!isKeyword ·) = [] ∧
        (lastSegments [] (Bound.upper.word ++ (w ++ "")).toList).filter (!isKeyword ·) ≠ [] ∧
        (lastSegments [] (Bound.lower.word ++ (w ++ "")).toList).filter (!isKeyword ·) ≠ [] := by
      decide +kernel
    have hv := p.valid
    rw [Bool.and_eq_true] at hv
    obtain ⟨he, hu, hl⟩ := hp p.word (List.contains_iff_mem.1 hv.1)
    cases bound with
    | exact => exact ⟨fun _ => ⟨rfl, trivial⟩, fun _ => he⟩
    | upper => exact ⟨fun h => absurd h hu, fun h => nomatch h.1⟩
    | lower => exact ⟨fun h => absurd h hl, fun h => nomatch h.1⟩
  | dotted n =>
    refine ⟨isPlain_of_namesRead, ?_⟩
    obtain ⟨first, rest⟩ := n
    rintro ⟨rfl, rfl, ha⟩
    have ht : (TypeName.dotted ⟨first, []⟩).text = first.text := DottedName.text_single first
    rw [namesRead, ht, lastSegments_single .exact ha]
    simp [namesWritten, Bound.word, first.not_isKeyword, DottedName.text_single]

end

end TestImpact.Java
