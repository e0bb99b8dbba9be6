import TestImpact.Proofs.Java.Acceptance
import TestImpact.Proofs.Java.Printing

/-!
# Names in type position

A name counts as a type by the tokens around it, so every construct of Java that names a class has
to be told by a look at these. Main statements: what is put in type position stands there, whatever
is in front (`mem_mentioned_append`); a list of types is read over the entries with type arguments
(`mem_listedTypes_append`); and the constructs whose class is found in every source are all but
those of `TypeUse.Missed` (`read_typeUse`).
-/

namespace TestImpact.Java

/-! ## The constructs that name a class -/

/-- Words that Java takes for keywords in some places only; elsewhere they are names. -/
def contextualWords : List String := ["permits", "record", "sealed", "yield"]

/-- A word that a variable may have for its name. -/
def IsVariableName (w : String) : Prop := isIdentifier w = true ∨ w ∈ contextualWords

/-- The words other than names that an expression may start with behind a cast to a class. -/
def operandWords : List String :=
  ["this", "new", "super", "switch", "null", "true", "false"] ++ primitives

/-- The words that are left out of those behind a cast. -/
def missedOperands : List String :=
  contextualWords ++ (["super", "switch", "null", "true", "false"] ++ primitives)

/-- A token that an expression may start with behind a cast to a class. -/
def IsOperandStart (t : Token) : Prop :=
  t = .literal ∨ (∃ c ∈ ['(', '!', '~'], t = .mark c) ∨
    ∃ w, t = .word w ∧ (IsVariableName w ∨ w ∈ operandWords)

/-- Names and dots, as in the name of a class in a package. -/
def IsQualifiedName (ts : List Token) : Prop :=
  ∀ t ∈ ts, t = .mark '.' ∨ ∃ w, t = .word w ∧ IsVariableName w

/-- The simple name of a class: an ASCII name with a capital initial. -/
structure IsClassName (name : String) : Prop where
  capital : isCapitalized name = true
  ascii : ∀ c ∈ name.toList, isNamePart c = true
  not_isKeyword : isKeyword name = false

/-- A class with type arguments. -/
structure ClassType where
  name : DottedName
  arguments : List TypeArgument := []

/-- The class as it is written. -/
def ClassType.tokens (t : ClassType) : List Token := t.name.tokens ++ argumentTokens t.arguments

/-- A construct of Java that names a class; the class itself is left open. -/
inductive TypeUse
  /-- A local, loop or pattern variable of that class. -/
  | ofVariable (name : String)
  /-- A cast in front of an expression that starts with the token. -/
  | cast (operand : Token)
  /-- An alternative of a `catch`, between other ones. -/
  | catching (isFinal : Bool) (front behind : List (List Token)) (name : String)
  /-- An entry of a list of types, behind other ones. -/
  | listed (word : String) (separator : Char) (front : List ClassType)
  /-- Behind `new`. -/
  | creation
  /-- Behind `instanceof`. -/
  | test
  | methodReference
  | classLiteral
  | array
  | varargs

namespace TypeUse

/-- The construct up to the class. -/
def front : TypeUse → List Token
  | cast _ => [.mark '(']
  | catching isFinal front _ _ =>
    [.word "catch", .mark '('] ++ ((if isFinal then [.word "final"] else []) ++
      front.flatMap fun a => a ++ [.mark '|'])
  | listed word sep front => .word word :: front.flatMap fun t => t.tokens ++ [.mark sep]
  | creation => [.word "new"]
  | test => [.word "instanceof"]
  | _ => []

/-- The construct behind the class. -/
def back : TypeUse → List Token
  | ofVariable v => [.word v]
  | cast t => [.mark ')', t]
  | catching _ _ behind v => behind.flatMap (fun a => .mark '|' :: a) ++ [.word v, .mark ')']
  | methodReference => [.doubleColon]
  | classLiteral => [.mark '.', .word "class"]
  | array => [.mark '[', .mark ']']
  | varargs => [.ellipsis]
  | _ => []

/-- The construct as it is written, with the class `name`. -/
def tokens (name : String) (u : TypeUse) : List Token := u.front ++ .word name :: u.back

/-- What Java asks of the parts of a construct. -/
def Legal : TypeUse → Prop
  | ofVariable v => IsVariableName v
  | cast t => IsOperandStart t
  | catching _ front behind v => (∀ a ∈ front ++ behind, IsQualifiedName a) ∧ IsVariableName v
  | listed word sep _ =>
    word ∈ ["extends", "implements", "throws"] ∧ (sep = ',' ∨ word = "extends" ∧ sep = '&')
  | _ => True

/-- The constructs that the reader does not know: variables with a contextual word for their name,
casts in front of the tokens that are left out, and the first of several alternatives behind
`final`. -/
def Missed : TypeUse → Prop
  | ofVariable v => v ∈ contextualWords
  | cast t => t ∈ [.mark '!', .mark '~'] ++ missedOperands.map Token.word
  | catching isFinal front behind v =>
    if behind = [] then v ∈ contextualWords else isFinal = true ∧ front = []
  | _ => False

/-- The construct can stand between the two lists: the class is no annotation, and where the
construct ends in the class and the name goes on, it goes on with a class inside that class. -/
def Fits (before after : List Token) : TypeUse → Prop
  | cast _ | catching .. => True
  | listed .. | creation | test =>
    ∀ member rest, after = .mark '.' :: .word member :: rest → isCapitalized member = true
  | _ => before.getLast? ≠ some (.mark '@')

/-- In every source that is read and has the construct anywhere behind its imports, the class is
among the names in type position. -/
def FoundEverywhere (u : TypeUse) (name : String) : Prop :=
  ∀ (text : String) (path : Path) (fqn : String) (kind : SourceKind) (r : ClassRecord)
    (ts : List Token) (imports : List Import) (before after : List Token),
    ClassRecord.read text path fqn kind = .ok r → Java.tokens text.toList = .ok ts →
    Opens ts imports (before ++ (u.tokens name ++ after)) → u.Fits before after →
    name ∈ r.typeRefs

end TypeUse

section
variable {name w x v : String} {prev : Option Token} {t : Token} {c : Char} {d : Nat}
  {before ts us after rest : List Token} {u : TypeUse}

/-! ## Names by the tokens around them -/

/-- What a token puts in type position stands there, whatever is in front. -/
theorem mem_mentioned_append (h : x ∈ namesAt (before.getLast?.or prev) t ts) :
    x ∈ mentioned prev (before ++ t :: ts) := by
  induction before generalizing prev with
  | nil => exact List.mem_append_left _ h
  | cons u before ih =>
    refine List.mem_append_right _ (ih ?_)
    cases before with
    | nil => exact h
    | cons v before => exact h

/-- A name that is no keyword is none of the keywords. -/
theorem ne_of_isKeyword (hn : isKeyword name = false) (hw : isKeyword w = true) : name ≠ w := by
  rintro rfl
  rw [hw] at hn
  cases hn

/-- A name counts by the tokens around it. -/
theorem namesAt_word (hn : isKeyword name = false) :
    namesAt prev (.word name) ts =
      if prev ≠ some (.mark '@') && isTypePosition prev name ts.head? ts[1]? then [name]
      else [] := by
  rw [namesAt]
  all_goals exact ne_of_isKeyword hn (by decide)

/-- A name that the tokens around it make a type stands in type position. -/
theorem mem_mentioned_word (hn : isKeyword name = false)
    (ha : before.getLast? ≠ some (.mark '@'))
    (hp : isTypePosition before.getLast? name ts.head? ts[1]? = true) :
    name ∈ mentioned none (before ++ .word name :: ts) := by
  refine mem_mentioned_append ?_
  rw [Option.or_none, namesAt_word hn, if_pos (by simp [ha, hp])]
  exact List.mem_singleton_self _

/-! ## Lists of types -/

/-- The search for the end of a list of type arguments takes `ts` along, in front of `rest`. -/
def TakenAlong (ts rest : List Token) : Prop :=
  ∀ d, argumentList? d (ts ++ rest) = (argumentList? d rest).map fun s => (ts ++ s.1, s.2)

/-- What can follow a type argument. -/
def EndsArgument (rest : List Token) : Prop :=
  rest.head? = some (.mark '>') ∨ rest.head? = some (.mark ',')

/-- An opening angle bracket in a list of arguments is one more to close. -/
theorem argumentList?_open :
    argumentList? d (.mark '<' :: ts) =
      (argumentList? (d + 1) ts).map fun s => (.mark '<' :: s.1, s.2) := by
  rw [argumentList?.eq_def]
  exact if_pos rfl

/-- A closing angle bracket in a list of arguments is one less to close. -/
theorem argumentList?_close :
    argumentList? (d + 1) (.mark '>' :: ts) =
      (argumentList? d ts).map fun s => (.mark '>' :: s.1, s.2) := by
  rw [argumentList?.eq_def]
  exact (if_neg (by decide)).trans (if_pos rfl)

/-- The closing angle bracket of the list itself ends it. -/
theorem argumentList?_end : argumentList? 0 (.mark '>' :: ts) = some ([], ts) := by
  rw [argumentList?.eq_def]
  exact (if_neg (by decide)).trans (if_pos rfl)

/-- The empty list is taken along. -/
theorem takenAlong_nil : TakenAlong [] rest := by
  intro d
  exact Option.map_id'.symm

/-- Two lists one after another are taken along. -/
theorem TakenAlong.append (ht : TakenAlong ts (us ++ rest)) (hu : TakenAlong us rest) :
    TakenAlong (ts ++ us) rest := by
  intro d
  rw [List.append_assoc, ht, hu, Option.map_map]
  exact congrArg (Option.map · _) (funext fun s => by simp)

/-- A token that fits in front of the next one is taken along. -/
theorem TakenAlong.cons (h : TakenAlong ts rest) (ho : t ≠ .mark '<') (hc : t ≠ .mark '>')
    (hf : fitsArguments t (ts ++ rest).head? = true) : TakenAlong (t :: ts) rest := by
  intro d
  rw [List.cons_append, argumentList?.eq_def]
  refine (if_neg ho).trans ((if_neg hc).trans ((if_pos hf).trans ?_))
  rw [h, Option.map_map]
  rfl

/-- What stands between angle brackets is taken along with them. -/
theorem TakenAlong.angles (h : TakenAlong ts (.mark '>' :: rest)) :
    TakenAlong (.mark '<' :: (ts ++ [.mark '>'])) rest := by
  intro d
  rw [List.cons_append, List.append_assoc, argumentList?_open, List.singleton_append, h,
    argumentList?_close, Option.map_map, Option.map_map]
  exact congrArg (Option.map · _) (funext fun s => by simp)

/-- A name or the word of a primitive type is not reserved. -/
theorem isReserved_of_word (h : isIdentifier w = true ∨ isPrimitive w = true) :
    isReserved w = false := by
  rcases h with h | h
  · simp [isReserved, Identifier.not_isKeyword ⟨w, h⟩]
  · simp [isReserved, h]

/-- Types are taken along, and their arguments if these end. -/
theorem takenAlong_closed :
    TypeClosed (fun ts => ∀ rest, TakenAlong ts rest)
      (fun ts => ∀ rest, EndsArgument rest → TakenAlong ts rest) := by
  have hmark : ∀ c ∈ ['.', ',', '[', ']'], ∀ {ts rest}, TakenAlong ts rest →
      TakenAlong (.mark c :: ts) rest := by
    intro c hc ts rest h
    simp only [List.mem_cons, List.not_mem_nil, or_false] at hc
    rcases hc with rfl | rfl | rfl | rfl
    all_goals exact h.cons (by decide) (by decide) rfl
  refine ⟨fun _ => takenAlong_nil, ?_, ?_, ?_, ?_, ?_, ?_, ?_, ?_⟩
  · exact fun ha hb rest => (ha _).append (hb _)
  · intro w hw rest
    exact takenAlong_nil.cons (by simp) (by simp) (by simp [fitsArguments, isReserved_of_word hw])
  · exact fun _ => hmark '.' (by decide) takenAlong_nil
  · exact fun _ => hmark '[' (by decide) (hmark ']' (by decide) takenAlong_nil)
  · exact fun ha rest => (ha _ (.inl rfl)).angles
  · intro a b ha rest _
    cases b with
    | exact => exact ha rest
    | upper | lower =>
      refine TakenAlong.cons (t := .mark '?') (.cons (t := .word _) (ha rest) ?_ ?_ rfl) ?_ ?_ rfl
      all_goals simp
  · rintro rest (hr | hr)
    all_goals exact takenAlong_nil.cons (by decide) (by decide) (by rw [List.nil_append, hr]; rfl)
  · intro a b ha hb rest hr
    exact (ha _ (.inr rfl)).append (hmark ',' (by decide) (hb rest hr))

/-- The type arguments of an entry are passed over. -/
theorem afterArguments?_append (args : List TypeArgument)
    (hr : rest.head? ≠ some (.mark '<')) :
    afterArguments? (argumentTokens args ++ rest) = some rest := by
  cases args with
  | nil =>
    rw [argumentTokens, List.nil_append, afterArguments?]
    rintro ts rfl
    exact hr rfl
  | cons a as =>
    obtain ⟨inside, hi, he⟩ :=
      moreArguments_closed takenAlong_closed as (a.tokens_closed takenAlong_closed)
    rw [argumentTokens, he, List.cons_append, List.append_assoc, List.singleton_append,
      afterArguments?, hi _ (.inl rfl), argumentList?_end]
    rfl

/-- A name that does not go on is read to its last segment. -/
theorem dottedName_append (n : DottedName) (hr : rest.head? ≠ some (.mark '.')) :
    ∃ last, dottedName none (n.tokens ++ rest) = (some last, rest) := by
  suffices hl : ∀ (first : Identifier) (more : List Identifier) (l : Option String), ∃ last,
      dottedName l (DottedName.tokens ⟨first, more⟩ ++ rest) = (some last, rest) from
    hl n.first n.rest none
  intro first more l
  have hres : ∀ i : Identifier, isReserved i.text = false := fun i =>
    isReserved_of_word (.inl i.valid)
  induction more generalizing first l with
  | nil =>
    refine ⟨first.text, ?_⟩
    show dottedName l (.word first.text :: rest) = _
    rw [dottedName, if_neg (by simp [hres])]
    rintro m r rfl
    exact hr rfl
  | cons i more ih =>
    obtain ⟨last, h⟩ := ih i (some first.text)
    refine ⟨last, ?_⟩
    show dottedName l (.word first.text :: .mark '.' :: .word i.text :: _) = _
    rw [dottedName, if_neg (by simp [hres])]
    exact h

/-- An entry in front of a separator is listed with those behind it. -/
theorem listedTypes_eq {n : String} (hn : dottedName none ts = (some n, us))
    (ha : afterArguments? us = some (t :: rest)) (ht : t = .mark ',' ∨ t = .mark '&') :
    listedTypes ts = n :: listedTypes rest := by
  rw [listedTypes]
  split
  · next h => rw [hn] at h; cases h
  · next h =>
    rw [hn] at h
    cases h
    split
    · next h =>
      rw [ha] at h
      cases h
      exact if_pos ht
    · next h => exact absurd ha (h _ _)

/-- The first entry is listed, whatever follows. -/
theorem mem_listedTypes (hn : dottedName none ts = (some x, us)) : x ∈ listedTypes ts := by
  rw [listedTypes]
  split
  · next h => rw [hn] at h; cases h
  · next h =>
    rw [hn] at h
    cases h
    split
    · split
      · exact List.mem_cons_self
      · exact List.mem_cons_self
    · exact List.mem_cons_self

/-- A list of types is read on behind an entry with type arguments. -/
theorem mem_listedTypes_append (e : ClassType) (hc : c = ',' ∨ c = '&')
    (h : x ∈ listedTypes rest) : x ∈ listedTypes (e.tokens ++ .mark c :: rest) := by
  have hm : ∀ d ∈ ['<', '.'], (Token.mark c :: rest).head? ≠ some (.mark d) := by
    rcases hc with rfl | rfl <;> simp
  have hargs : (argumentTokens e.arguments ++ .mark c :: rest).head? ≠ some (.mark '.') := by
    cases e.arguments with
    | nil => rw [argumentTokens]; exact hm '.' (by decide)
    | cons a as => rw [argumentTokens]; simp
  obtain ⟨last, hl⟩ := dottedName_append e.name hargs
  rw [ClassType.tokens, List.append_assoc,
    listedTypes_eq hl (afterArguments?_append e.arguments (hm '<' (by decide))) (by simpa using hc)]
  exact List.mem_cons_of_mem _ h

/-- So it is behind any number of entries. -/
theorem mem_listedTypes_entries (front : List ClassType) (hc : c = ',' ∨ c = '&')
    (h : x ∈ listedTypes rest) :
    x ∈ listedTypes (front.flatMap (fun e => e.tokens ++ [.mark c]) ++ rest) := by
  induction front with
  | nil => exact h
  | cons e front ih =>
    rw [List.flatMap_cons, List.append_assoc, List.append_assoc]
    exact mem_listedTypes_append e hc ih

/-! ## What is found -/

/-- A word that no segment follows is the whole name. -/
theorem dottedName_word (hn : isKeyword name = false)
    (ha : ∀ m r, after ≠ .mark '.' :: .word m :: r) :
    dottedName none (.word name :: after) = (some name, after) := by
  rw [dottedName, if_neg (by simp [isReserved, hn])]
  exact ha

/-- A list of entries that each end in the same token ends in it. -/
theorem getLast?_flatMap {α : Type} (l : List α) (f : α → List Token) (t : Token) :
    (l.flatMap fun a => f a ++ [t]).getLast? = if l = [] then none else some t := by
  rcases l.eq_nil_or_concat with rfl | ⟨l, a, rfl⟩
  · rfl
  · simp

/-- A class behind a word that looks for names is found by that word, unless its name goes on. Then
it is found as the class around another one. -/
theorem mem_mentioned_behind (hX : IsClassName x) (hus : us.getLast? ≠ some (.mark '@'))
    (hf : ∀ member rest, after = .mark '.' :: .word member :: rest → isCapitalized member = true)
    (hw : dottedName none (.word x :: after) = (some x, after) →
      ∀ prev, x ∈ namesAt prev (.word w) (us ++ .word x :: after)) :
    x ∈ mentioned none (before ++ .word w :: (us ++ .word x :: after)) := by
  by_cases ha : ∃ m r, after = .mark '.' :: .word m :: r
  · obtain ⟨m, r, rfl⟩ := ha
    have he : before ++ .word w :: (us ++ .word x :: .mark '.' :: .word m :: r) =
        (before ++ .word w :: us) ++ .word x :: .mark '.' :: .word m :: r := by simp
    have hl : (before ++ .word w :: us).getLast? ≠ some (.mark '@') := by
      rw [List.getLast?_append, List.getLast?_cons]
      cases hu : us.getLast? with
      | none => simp
      | some t => simpa [hu] using hus
    rw [he]
    refine mem_mentioned_word hX.not_isKeyword hl ?_
    simp [isTypePosition, hX.capital, hf m r rfl]
  · refine mem_mentioned_append (hw (dottedName_word hX.not_isKeyword fun m r he => ?_) _)
    exact ha ⟨m, r, he⟩

/-- A variable's name that is no contextual word is no keyword. -/
theorem not_isKeyword_of_variable (hv : IsVariableName v) (hc : v ∉ contextualWords) :
    isKeyword v = false :=
  Identifier.not_isKeyword ⟨v, hv.resolve_right hc⟩

/-- What starts an operand and is not left out is known to start one. -/
theorem startsOperand_of_legal (ht : IsOperandStart t) (hm : ¬(TypeUse.cast t).Missed) :
    startsOperand t = true := by
  simp only [TypeUse.Missed, List.mem_append, not_or] at hm
  obtain ⟨hmark, hword⟩ := hm
  rcases ht with rfl | ⟨c, hc, rfl⟩ | ⟨w, rfl, hw⟩
  · rfl
  · simp only [List.mem_cons, List.not_mem_nil, or_false] at hc
    rcases hc with rfl | rfl | rfl
    · rfl
    · simp at hmark
    · simp at hmark
  · have hw' : w ∉ missedOperands := fun h => hword (List.mem_map_of_mem h)
    rw [missedOperands, List.mem_append, not_or] at hw'
    rcases hw with hw | hw
    · simp [startsOperand, not_isKeyword_of_variable hw hw'.1]
    · have hk : ∀ w ∈ operandWords,
          w ∉ ["super", "switch", "null", "true", "false"] ++ primitives →
            startsOperand (.word w) = true := by decide
      exact hk w hw hw'.2

/-- The class of a construct that the reader knows stands in type position. -/
theorem TypeUse.mem_mentioned (hX : IsClassName x) (hu : u.Legal) (hm : ¬u.Missed)
    (hf : u.Fits before after) : x ∈ mentioned none (before ++ (u.tokens x ++ after)) := by
  have he : before ++ (u.tokens x ++ after) =
      (before ++ u.front) ++ .word x :: (u.back ++ after) := by
    simp [tokens]
  cases u with
  | ofVariable v =>
    rw [he]
    refine mem_mentioned_word hX.not_isKeyword (by simpa [front, Fits] using hf) ?_
    simp [back, isTypePosition, not_isKeyword_of_variable hu hm]
  | cast t =>
    rw [he]
    refine mem_mentioned_word hX.not_isKeyword (by simp [front]) ?_
    simp [front, back, isTypePosition, hX.capital, startsOperand_of_legal hu hm]
  | catching isFinal others behind v =>
    rw [he]
    have hl : (before ++ (catching isFinal others behind v).front).getLast? =
        if others = [] then (if isFinal then some (.word "final") else some (.mark '('))
        else some (.mark '|') := by
      simp only [front, List.getLast?_append, getLast?_flatMap]
      split
      · split <;> simp
      · simp
    refine mem_mentioned_word hX.not_isKeyword ?_ ?_
    · rw [hl]
      split
      · split <;> simp
      · simp
    · rw [hl]
      cases behind with
      | nil => simp [back, isTypePosition, not_isKeyword_of_variable hu.2 hm]
      | cons a behind =>
        have hm : ¬(isFinal = true ∧ others = []) := hm
        split
        · next ho =>
          rw [if_neg fun h => hm ⟨h, ho⟩]
          simp [back, isTypePosition, hX.capital]
        · simp [back, isTypePosition, hX.capital]
  | listed w sep entries =>
    obtain ⟨hw, hs⟩ := hu
    have hc : sep = ',' ∨ sep = '&' := hs.imp_right And.right
    have hn : ∀ prev ts, namesAt prev (.word w) ts = listedTypes ts := by
      intro prev ts
      simp only [List.mem_cons, List.not_mem_nil, or_false] at hw
      rcases hw with rfl | rfl | rfl <;> rw [namesAt]
    have hl : (entries.flatMap fun e => e.tokens ++ [.mark sep]).getLast? ≠ some (.mark '@') := by
      rw [getLast?_flatMap]
      split
      · simp
      · rcases hc with rfl | rfl <;> simp
    have he : before ++ ((listed w sep entries).tokens x ++ after) = before ++ .word w ::
        (entries.flatMap (fun e => e.tokens ++ [.mark sep]) ++ .word x :: after) := by
      simp [tokens, front, back]
    rw [he]
    refine mem_mentioned_behind hX hl hf fun hd prev => ?_
    rw [hn]
    exact mem_listedTypes_entries entries hc (mem_listedTypes hd)
  | creation | test =>
    show x ∈ mentioned none (before ++ .word _ :: ([] ++ .word x :: after))
    refine mem_mentioned_behind hX (by simp) hf fun hd prev => ?_
    rw [List.nil_append, namesAt, hd]
    exact List.mem_singleton_self x
  | methodReference | classLiteral | array | varargs =>
    rw [he]
    refine mem_mentioned_word hX.not_isKeyword (by simpa [front, Fits] using hf) ?_
    simp [back, isTypePosition]

/-! ## What is missed -/

/-- The tokens that look for names behind them. -/
def searching : List Token :=
  .mark '<' :: ["new", "instanceof", "extends", "implements", "throws"].map Token.word

/-- A token that looks for no names behind it names nothing but itself, and this by the tokens
around it. -/
theorem eq_word_of_mem_namesAt (ht : t ∉ searching) (h : x ∈ namesAt prev t ts) :
    t = .word x ∧ isTypePosition prev x ts.head? ts[1]? = true := by
  rw [namesAt.eq_def] at h
  split at h
  case h_1 | h_2 | h_3 | h_4 | h_5 | h_6 => exact absurd (by decide) ht
  case h_7 =>
    split at h
    · next hp =>
      obtain rfl := List.mem_singleton.1 h
      exact ⟨rfl, (Bool.and_eq_true_iff.1 hp).2⟩
    · cases h
  case h_8 => cases h

/-- Where nothing searches ahead, what is in type position is a word of the list. -/
theorem word_mem_of_mem_mentioned (hs : ∀ t ∈ ts, t ∉ searching) (h : x ∈ mentioned prev ts) :
    .word x ∈ ts := by
  induction ts generalizing prev with
  | nil => cases h
  | cons t ts ih =>
    obtain ⟨ht, hts⟩ := List.forall_mem_cons.1 hs
    rcases List.mem_append.1 h with h | h
    · exact List.mem_cons.2 (.inl (eq_word_of_mem_namesAt ht h).1.symm)
    · exact List.mem_cons_of_mem _ (ih hts h)

/-- A name that stands in one place is not found if the tokens around it make no type of it, and
none looks for names. -/
theorem not_mem_mentioned_word (hs : ∀ t ∈ before ++ .word x :: after, t ∉ searching)
    (hb : .word x ∉ before) (ha : .word x ∉ after)
    (hp : isTypePosition (before.getLast?.or prev) x after.head? after[1]? = false) :
    x ∉ mentioned prev (before ++ .word x :: after) := by
  intro h
  induction before generalizing prev with
  | nil =>
    obtain ⟨hx, hts⟩ := List.forall_mem_cons.1 hs
    rcases List.mem_append.1 h with h | h
    · have ht := (eq_word_of_mem_namesAt hx h).2
      rw [show isTypePosition prev x _ _ = false from hp] at ht
      cases ht
    · exact ha (word_mem_of_mem_mentioned hts h)
  | cons t before ih =>
    obtain ⟨ht, hts⟩ := List.forall_mem_cons.1 hs
    rcases List.mem_append.1 h with h | h
    · exact hb (List.mem_cons.2 (.inl (eq_word_of_mem_namesAt ht h).1.symm))
    · refine ih hts (fun hm => hb (List.mem_cons_of_mem _ hm)) ?_ h
      cases before <;> exact hp

/-- The name of a class can be written as a word. -/
theorem IsClassName.isLexeme (hX : IsClassName x) : (Token.word x).isLexeme = true := by
  obtain ⟨c, hc, hu⟩ := (Option.any_eq_true _ _).1 hX.capital
  have ha : c.isAlpha = true := by
    show (c.isUpper || c.isLower) = true
    rw [hu, Bool.true_or]
  have hs : isWordStart c = true := by simp [isWordStart, isNameStart, ha]
  simp only [Token.isLexeme, hc, Option.any_some, hs, Bool.true_and, List.all_eq_true]
  exact fun d hd => by simp [isWordPart, hX.ascii d hd]

/-- The tokens that a missed construct consists of, other than names and parentheses. -/
def fixedTokens : List Token :=
  ['.', '|', '!', '~'].map Token.mark ++ (["catch", "final"] ++ missedOperands).map Token.word

/-- A name that can be written, or one of the fixed tokens. -/
def IsPart (t : Token) : Prop :=
  t ∈ fixedTokens ∨ ∃ w, t = .word w ∧ t.isLexeme = true ∧ isKeyword w = false

/-- A name is a part of a construct. -/
theorem isPart_identifier (i : Identifier) : IsPart (.word i.text) :=
  .inr ⟨_, rfl, isLexeme_identifier i, i.not_isKeyword⟩

/-- The name of a variable is a part of a construct. -/
theorem isPart_variable (hv : IsVariableName v) : IsPart (.word v) := by
  have hc : ∀ v ∈ contextualWords, .word v ∈ fixedTokens := by decide
  rcases hv with hv | hv
  · exact isPart_identifier ⟨v, hv⟩
  · exact .inl (hc v hv)

/-- What holds of every missed construct: it is kept by appending and by parentheses, and holds of
the parts. -/
structure PartsClosed (P : List Token → Prop) : Prop where
  nil : P []
  append {a b : List Token} : P a → P b → P (a ++ b)
  part {t : Token} : IsPart t → P [t]
  parentheses {ts : List Token} : P ts → P (.mark '(' :: (ts ++ [.mark ')']))

/-- A property of parts goes over to a list with one more part in front. -/
theorem PartsClosed.cons {P : List Token → Prop} (hc : PartsClosed P) (ht : IsPart t) (h : P ts) :
    P (t :: ts) :=
  hc.append (hc.part ht) h

/-- A property of parts goes over to every list of parts. -/
theorem PartsClosed.of_forall {P : List Token → Prop} (hc : PartsClosed P)
    (h : ∀ t ∈ ts, IsPart t) : P ts := by
  induction ts with
  | nil => exact hc.nil
  | cons t ts ih =>
    obtain ⟨ht, hts⟩ := List.forall_mem_cons.1 h
    exact hc.cons ht (ih hts)

/-- A property of parts goes over to the constructs that the reader does not know. -/
theorem PartsClosed.missed {P : List Token → Prop} (hc : PartsClosed P) (hX : IsClassName x)
    (hu : u.Legal) (hm : u.Missed) : P (u.tokens x) := by
  have hx : IsPart (.word x) := .inr ⟨x, rfl, hX.isLexeme, hX.not_isKeyword⟩
  have hbar : IsPart (.mark '|') := .inl (by decide)
  cases u with
  | ofVariable v => exact hc.cons hx (hc.part (isPart_variable hu))
  | cast t =>
    have ht : ∀ t ∈ [.mark '!', .mark '~'] ++ missedOperands.map Token.word, t ∈ fixedTokens := by
      decide
    have hp : P ((.mark '(' :: ([.word x] ++ [.mark ')'])) ++ [t]) :=
      hc.append (hc.parentheses (hc.part hx)) (hc.part (.inl (ht t hm)))
    exact hp
  | catching isFinal front behind v =>
    have hfinal : P (if isFinal then [.word "final"] else []) := by
      split
      · exact hc.part (.inl (by decide))
      · exact hc.nil
    have hname : ∀ a ∈ front ++ behind, ∀ t ∈ a, IsPart t := by
      intro a ha t ht
      rcases hu.1 a ha t ht with rfl | ⟨w, rfl, hw⟩
      · exact .inl (by decide)
      · exact isPart_variable hw
    have hfront : P (front.flatMap fun a => a ++ [.mark '|']) := by
      refine hc.of_forall fun t ht => ?_
      obtain ⟨a, ha, ht⟩ := List.mem_flatMap.1 ht
      rcases List.mem_append.1 ht with ht | ht
      · exact hname a (List.mem_append_left _ ha) t ht
      · exact List.mem_singleton.1 ht ▸ hbar
    have hbehind : P (behind.flatMap fun a => .mark '|' :: a) := by
      refine hc.of_forall fun t ht => ?_
      obtain ⟨a, ha, ht⟩ := List.mem_flatMap.1 ht
      rcases List.mem_cons.1 ht with rfl | ht
      · exact hbar
      · exact hname a (List.mem_append_right _ ha) t ht
    have hp := hc.cons (.inl (by decide : .word "catch" ∈ fixedTokens)) (hc.parentheses
      (hc.append hfinal (hc.append hfront (hc.cons hx (hc.append hbehind
        (hc.part (isPart_variable hu.2)))))))
    simpa [TypeUse.tokens, TypeUse.front, TypeUse.back] using hp
  | listed | creation | test | methodReference | classLiteral | array | varargs => cases hm

/-- No part searches ahead. -/
theorem partsClosed_plain : PartsClosed (fun ts => ∀ t ∈ ts, t ∉ searching) where
  nil := nofun
  append ht hu := List.forall_mem_append.2 ⟨ht, hu⟩
  part {t} ht := by
    have hf : ∀ t ∈ fixedTokens, t ∉ searching := by decide
    rw [List.forall_mem_singleton]
    rcases ht with ht | ⟨w, rfl, -, hw⟩
    · exact hf t ht
    · simp only [searching, List.map_cons, List.map_nil, List.mem_cons, Token.word.injEq,
        List.not_mem_nil, or_false, reduceCtorEq, false_or, not_or]
      refine ⟨?_, ?_, ?_, ?_, ?_⟩
      all_goals exact ne_of_isKeyword hw (by decide)
  parentheses h := by
    have hopen : .mark '(' ∉ searching := by decide
    have hclose : .mark ')' ∉ searching := by decide
    exact List.forall_mem_cons.2 ⟨hopen,
      List.forall_mem_append.2 ⟨h, List.forall_mem_singleton.2 hclose⟩⟩

/-- Every part can be written. -/
theorem partsClosed_written : PartsClosed Written where
  nil := .nil
  append := .append
  part {t} ht := by
    have hf : ∀ t ∈ fixedTokens, t.isLexeme = true := by decide
    rcases ht with ht | ⟨w, rfl, hl, -⟩
    · exact .cons (hf t ht) .nil
    · exact .cons hl .nil
  parentheses h := .mark (h.append (.mark .nil))

/-- The parts nest. -/
theorem partsClosed_wellNested : PartsClosed (WellNested InHeader) where
  nil := .nil
  append := .append
  part {t} ht := by
    have hf : ∀ t ∈ fixedTokens, t.isBracket = false ∧ t ≠ .mark ';' ∧ t ≠ .mark '{' := by decide
    rcases ht with ht | ⟨w, rfl, -, -⟩
    · exact .token (hf t ht).1 (hf t ht).2 .nil
    · exact .token rfl ⟨nofun, nofun⟩ .nil
  parentheses h := .group .parentheses ⟨by decide, by decide⟩ (h.imp fun _ _ => trivial) .nil

/-- The class of a construct that is missed stands in no type position. -/
theorem TypeUse.not_mem_mentioned (hX : IsClassName x) (hu : u.Legal) (hm : u.Missed)
    (h : (u.tokens x).count (.word x) = 1) : x ∉ mentioned none (u.tokens x) := by
  have hone : .word x ∉ u.front ∧ .word x ∉ u.back := by
    rw [tokens, List.count_append, List.count_cons_self] at h
    exact ⟨List.count_eq_zero.1 (by omega), List.count_eq_zero.1 (by omega)⟩
  refine not_mem_mentioned_word (partsClosed_plain.missed hX hu hm) hone.1 hone.2 ?_
  have hk : ∀ v ∈ contextualWords, isKeyword v = true := by decide
  cases u with
  | ofVariable v => simp [back, isTypePosition, hk v hm]
  | cast t =>
    have ht : ∀ t ∈ [.mark '!', .mark '~'] ++ missedOperands.map Token.word,
        startsOperand t = false := by decide
    simp [front, back, isTypePosition, ht t hm]
  | catching isFinal others behind v =>
    cases behind with
    | nil => simp [back, isTypePosition, hk v hm]
    | cons a behind =>
      obtain ⟨rfl, rfl⟩ : isFinal = true ∧ others = [] := hm
      simp [front, back, isTypePosition]
  | listed | creation | test | methodReference | classLiteral | array | varargs => cases hm

/-- A construct that the reader does not know can stand right behind the imports. -/
theorem TypeUse.startsBody_of_missed (hX : IsClassName x) (hm : u.Missed) :
    StartsBody (u.tokens x) := by
  have hp : x ≠ "package" := ne_of_isKeyword hX.not_isKeyword (by decide)
  have hi : x ≠ "import" := ne_of_isKeyword hX.not_isKeyword (by decide)
  cases u with
  | ofVariable | cast | catching =>
    refine ⟨?_, ?_, ?_, ?_⟩
    all_goals simp [tokens, front, hp, hi]
  | listed | creation | test | methodReference | classLiteral | array | varargs => cases hm

/-- Nothing is declared by tokens that a header may consist of. -/
theorem members_of_wellNested (hn : WellNested InHeader ts) : members ts = .ok [] := by
  have hw : walk [] 0 false [] (ts ++ []) = walk [] 0 false ts.reverse [] := walk_header hn
  rwa [List.append_nil, walk_nil] at hw

/-! ## The names of a source -/

/-- The names in type position behind the imports, and those that the declared types mention. -/
theorem typeRefs_of_read {text fqn : String} {path : Path} {kind : SourceKind} {r : ClassRecord}
    {imports : List Import} {body : List Token} (hr : ClassRecord.read text path fqn kind = .ok r)
    (ht : Java.tokens text.toList = .ok ts) (ho : Opens ts imports body) :
    ∃ ms, members body = .ok ms ∧
      r.typeRefs = .ofList (references body ++ (declaredTypes ms).flatMap mentionedBy) := by
  obtain ⟨h, hp⟩ := exists_readParts ht ho
  rw [ClassRecord.read, hp] at hr
  cases hm : members body with
  | error e => rw [hm] at hr; cases hr
  | ok ms => rw [hm] at hr; cases hr; exact ⟨ms, rfl, rfl⟩

/-- A name that is no keyword is referred to exactly if it is in type position. -/
theorem mem_references (hn : isKeyword x = false) : x ∈ references ts ↔ x ∈ mentioned none ts := by
  simp [references, hn]

/-- All other constructs are found in every source. -/
theorem TypeUse.foundEverywhere (hX : IsClassName x) (hu : u.Legal) (hm : ¬u.Missed) :
    u.FoundEverywhere x := by
  intro text path fqn kind r ts imports before after hr ht ho hf
  obtain ⟨ms, -, he⟩ := typeRefs_of_read hr ht ho
  rw [he, NameSet.mem_ofList, List.mem_append]
  exact .inl ((mem_references hX.not_isKeyword).2 (mem_mentioned hX hu hm hf))

/-- A source that consists of a missed construct alone is read without its class. -/
theorem TypeUse.not_foundEverywhere (hX : IsClassName x) (hu : u.Legal) (hm : u.Missed)
    (h : (u.tokens x).count (.word x) = 1) : ¬u.FoundEverywhere x := by
  intro hall
  have ht : Java.tokens (String.ofList (spell (u.tokens x))).toList = .ok (u.tokens x) := by
    rw [String.toList_ofList]
    exact tokens_spell (partsClosed_written.missed hX hu hm)
  have hn : WellNested InHeader (u.tokens x) := partsClosed_wellNested.missed hX hu hm
  have ho : Opens (u.tokens x) [] (u.tokens x) := .body (startsBody_of_missed hX hm)
  obtain ⟨r, hr⟩ := exists_read_of_wellNested ht ho (hn.imp fun _ _ => trivial) ⟨"C.java"⟩ "C"
    .production
  have hf : u.Fits [] [] := by cases u <;> simp [Fits]
  have ho' : Opens (u.tokens x) [] ([] ++ (u.tokens x ++ [])) := by
    rwa [List.nil_append, List.append_nil]
  have hx := hall _ _ _ _ r _ _ [] [] hr ht ho' hf
  obtain ⟨ms, hms, he⟩ := typeRefs_of_read hr ht ho
  rw [members_of_wellNested hn] at hms
  cases hms
  rw [he, NameSet.mem_ofList] at hx
  simp only [declaredTypes, List.flatMap_nil, List.filterMap_nil, List.append_nil] at hx
  exact not_mem_mentioned hX hu hm h ((mem_references hX.not_isKeyword).1 hx)

/-- Which constructs are read for the class that they name. In every source that is read, the class
is among the names in type position wherever the construct stands behind the imports, unless the
construct is one of those that are missed. Of these, the class is not found where nothing else
mentions it. -/
theorem read_typeUse (hX : IsClassName x) (hu : u.Legal) :
    (¬u.Missed → u.FoundEverywhere x) ∧
      (u.Missed → (u.tokens x).count (.word x) = 1 → ¬u.FoundEverywhere x) :=
  ⟨TypeUse.foundEverywhere hX hu, TypeUse.not_foundEverywhere hX hu⟩

end

/-- A list of types with an entry in front that has a type argument with a bound and an array. -/
def behindArguments : TypeUse :=
  .listed "implements" ','
    [⟨{ first := { text := "java" }, rest := [{ text := "util" }, { text := "HashMap" }] },
      [.type .exact (.named { text := "K" }),
        .type .upper (.named { text := "V" } [.wildcard] 1)]⟩]

/-- Behind such an entry the class is always found, and as the type of a variable `record` it is
not. -/
theorem read_typeUse_behindArguments :
    IsClassName "Foo" ∧ behindArguments.Legal ∧ (TypeUse.ofVariable "record").Legal ∧
      behindArguments.FoundEverywhere "Foo" ∧
      ¬(TypeUse.ofVariable "record").FoundEverywhere "Foo" := by
  have hX : IsClassName "Foo" := ⟨by decide, List.all_eq_true.1 (by decide), by decide⟩
  have hl : behindArguments.Legal := ⟨by decide, .inl rfl⟩
  have hr : (TypeUse.ofVariable "record").Legal := .inr (by decide)
  have hm : (TypeUse.ofVariable "record").Missed := by simp [TypeUse.Missed, contextualWords]
  exact ⟨hX, hl, hr, (read_typeUse hX hl).1 nofun, (read_typeUse hX hr).2 hm (by decide)⟩

/-- A source holds the tokens behind its imports, and it is read without the name. -/
def ReadWithout (text : String) (use : List Token) (name : String) : Prop :=
  ∃ r ts imports before after,
    ClassRecord.read text ⟨"C.java"⟩ "C" .production = .ok r ∧ tokens text.toList = .ok ts ∧
      Opens ts imports (before ++ (use ++ after)) ∧ name ∉ r.typeRefs

/-- Whether the tokens stand behind the imports is told by a look at each place there. -/
theorem readWithout_of_any {text name : String} {use : List Token}
    (hr : (ClassRecord.read text ⟨"C.java"⟩ "C" .production).toOption.any
      (fun r => name ∉ r.typeRefs) = true)
    (hh : (tokens text.toList >>= header).toOption.any
      (fun x => (List.range x.2.length).any fun n => use.isPrefixOf (x.2.drop n)) = true) :
    ReadWithout text use name := by
  have hb : ∃ ts imports body, tokens text.toList = .ok ts ∧ Opens ts imports body ∧
      ((List.range body.length).any fun n => use.isPrefixOf (body.drop n)) = true :=
    exists_opens_of_header hh
  obtain ⟨r, hr, hx⟩ := (Option.any_eq_true _ _).1 hr
  obtain ⟨ts, imports, body, ht, ho, hb⟩ := hb
  obtain ⟨n, -, hn⟩ := List.any_eq_true.1 hb
  obtain ⟨after, ha⟩ := List.isPrefixOf_iff_prefix.1 hn
  refine ⟨r, ts, imports, body.take n, after, eq_ok_of_toOption hr, ht, ?_, of_decide_eq_true hx⟩
  rwa [ha, List.take_append_drop]

/-- Not every name in type position is found: these sources are read without `Foo`. They hold three
constructs that are missed, and a list in which an entry goes on behind its type arguments. -/
theorem exists_typeUse_not_found :
    ReadWithout "class C \x7b void m() \x7b Foo record = load(); \x7d \x7d"
      ((TypeUse.ofVariable "record").tokens "Foo") "Foo" ∧
    ReadWithout "class C \x7b void m(boolean b) \x7b h((Foo) !b); \x7d \x7d"
      ((TypeUse.cast (.mark '!')).tokens "Foo") "Foo" ∧
    ReadWithout
      "class C \x7b void m() \x7b try \x7b go(); \x7d catch (final Foo | Bar e) \x7b \x7d \x7d \x7d"
      ((TypeUse.catching true [] [[.word "Bar"]] "e").tokens "Foo") "Foo" ∧
    ReadWithout
      "class C \x7b void m() \x7b class D implements Outer<Bar>.Inner, Foo \x7b \x7d \x7d \x7d"
      [.word "implements", .word "Outer", .mark '<', .word "Bar", .mark '>', .mark '.',
        .word "Inner", .mark ',', .word "Foo"] "Foo" := by
  refine ⟨?_, ?_, ?_, ?_⟩
  all_goals exact readWithout_of_any (by decide +kernel) (by decide +kernel)

end TestImpact.Java
