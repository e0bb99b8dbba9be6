import TestImpact.Proofs.Java.Indexed.References
import TestImpact.Proofs.Java.TypePositions

/-!
# Lists of type arguments and type parameters

Everything between angle brackets, as it may be written: wildcards, types with arguments of their
own at every segment, and names with bounds. Main statements: the search for the end of a list never
gives up inside a written one (`takenAlong_argumentsInside`), the end that it finds is the bracket
that counting finds (`splitClose_of_argumentList?`), and so in every source that is read the words
of the list are found, as is the word in front of it (`read_argumentList`).
-/

namespace TestImpact.Java

/-! ## What is written -/

/-- A word that a type may be called by: a name, or the word of a primitive type. -/
structure TypeWord where
  text : String
  valid : isReserved text = false := by decide +kernel

/-- The word in front of the bounds of an argument or a parameter. -/
inductive BoundWord
  | upper
  | lower

/-- The word as it is written. -/
def BoundWord.text : BoundWord → String
  | upper => "extends"
  | lower => "super"

mutual

/-- A type. Arguments and array brackets may stand behind every part of it. -/
inductive WrittenType
  | name (w : TypeWord)
  /-- A type inside another one, or inside a package. -/
  | member (owner : WrittenType) (w : TypeWord)
  | applied (t : WrittenType) (arguments : List WrittenArgument)
  | array (t : WrittenType)

/-- An entry of a list between angle brackets. -/
inductive WrittenArgument
  | wildcard
  | type (t : WrittenType)
  /-- A name, or a wildcard for none, with its bounds. -/
  | bounded (subject : Option TypeWord) (word : BoundWord) (bound : WrittenType)
      (more : List WrittenType)

end

/-- What stands in front of a bound. -/
def subjectToken : Option TypeWord → Token
  | none => .mark '?'
  | some w => .word w.text

mutual

/-- The type as it is written. -/
def WrittenType.tokens : WrittenType → List Token
  | .name w => [.word w.text]
  | .member owner w => owner.tokens ++ [.mark '.', .word w.text]
  | .applied t args => t.tokens ++ .mark '<' :: (argumentsInside args ++ [.mark '>'])
  | .array t => t.tokens ++ [.mark '[', .mark ']']

/-- The entry as it is written. -/
def WrittenArgument.tokens : WrittenArgument → List Token
  | .wildcard => [.mark '?']
  | .type t => t.tokens
  | .bounded subject word bound more =>
    subjectToken subject :: .word word.text :: (bound.tokens ++ furtherBounds more)

/-- The bounds behind the first one. -/
def furtherBounds : List WrittenType → List Token
  | [] => []
  | t :: ts => .mark '&' :: (t.tokens ++ furtherBounds ts)

/-- What stands between the angle brackets. -/
def argumentsInside : List WrittenArgument → List Token
  | [] => []
  | a :: as => a.tokens ++ furtherArguments as

/-- The entries behind the first one. -/
def furtherArguments : List WrittenArgument → List Token
  | [] => []
  | a :: as => .mark ',' :: (a.tokens ++ furtherArguments as)

end

section
variable {ts us rest inside : List Token} {w name : String} {c : Char} {d : Nat}

/-! ## The search for the end -/

/-- A word that is not reserved is taken along. -/
theorem takenAlong_word (hw : isReserved w = false) : TakenAlong [.word w] rest := by
  have hf : fitsArguments (.word w) rest.head? = true := by simp [fitsArguments, hw]
  exact takenAlong_nil.cons (by simp) (by simp) hf

/-- A mark of a type in front is taken along. -/
theorem TakenAlong.mark (h : TakenAlong ts rest) (hc : c ∈ ['.', ',', '[', ']']) :
    TakenAlong (.mark c :: ts) rest := by
  have hmarks : ∀ c ∈ ['.', ',', '[', ']'],
      Token.mark c ≠ .mark '<' ∧ Token.mark c ≠ .mark '>' ∧
        ∀ next, fitsArguments (.mark c) next = true := by
    simp [fitsArguments]
  obtain ⟨ho, hx, hf⟩ := hmarks c hc
  exact h.cons ho hx (hf _)

/-- A type starts with a word, so no second `&` follows one in front of it. -/
theorem WrittenType.exists_cons : ∀ t : WrittenType, ∃ w ts, t.tokens = .word w :: ts
  | .name w => ⟨w.text, [], by rw [WrittenType.tokens]⟩
  | .member owner w => by
    obtain ⟨v, ts, h⟩ := owner.exists_cons
    exact ⟨v, ts ++ [.mark '.', .word w.text], by rw [WrittenType.tokens, h, List.cons_append]⟩
  | .applied t args => by
    obtain ⟨v, ts, h⟩ := t.exists_cons
    exact ⟨v, ts ++ .mark '<' :: (argumentsInside args ++ [.mark '>']), by
      rw [WrittenType.tokens, h, List.cons_append]⟩
  | .array t => by
    obtain ⟨v, ts, h⟩ := t.exists_cons
    exact ⟨v, ts ++ [.mark '[', .mark ']'], by rw [WrittenType.tokens, h, List.cons_append]⟩

/-- The word of a bound is taken along, and so is what it stands behind. -/
theorem TakenAlong.bounded (h : TakenAlong ts rest) (subject : Option TypeWord) (b : BoundWord) :
    TakenAlong (subjectToken subject :: .word b.text :: ts) rest := by
  have hword : TakenAlong (.word b.text :: ts) rest := by
    refine h.cons (by simp) (by simp) ?_
    cases b <;> simp [fitsArguments, BoundWord.text]
  cases subject with
  | none =>
    refine hword.cons (by decide) (by decide) ?_
    cases b <;> rfl
  | some w => exact (takenAlong_word w.valid).append hword

/-- Behind an entry stands a comma or the closing bracket. -/
theorem endsArgument_furtherArguments (args : List WrittenArgument) (rest : List Token) :
    EndsArgument (furtherArguments args ++ .mark '>' :: rest) := by
  cases args with
  | nil => rw [furtherArguments]; exact .inl rfl
  | cons a as => rw [furtherArguments]; exact .inr rfl

mutual

/-- A type is taken along wherever it stands. -/
theorem WrittenType.takenAlong : ∀ (t : WrittenType) (rest : List Token), TakenAlong t.tokens rest
  | .name w, rest => by
    rw [WrittenType.tokens]
    exact takenAlong_word w.valid
  | .member owner w, rest => by
    have hsegment : TakenAlong [.mark '.', .word w.text] rest :=
      (takenAlong_word w.valid).mark (by decide)
    rw [WrittenType.tokens]
    exact (owner.takenAlong _).append hsegment
  | .applied t args, rest => by
    have hlist := (takenAlong_argumentsInside args rest).angles
    rw [WrittenType.tokens]
    exact (t.takenAlong _).append hlist
  | .array t, rest => by
    have hbrackets : TakenAlong [.mark '[', .mark ']'] rest :=
      (takenAlong_nil.mark (by decide)).mark (by decide)
    rw [WrittenType.tokens]
    exact (t.takenAlong _).append hbrackets

/-- An entry is taken along if it ends: nothing but a bound, a comma or the closing bracket may
follow a wildcard. -/
theorem WrittenArgument.takenAlong : ∀ (a : WrittenArgument) (rest : List Token),
    EndsArgument rest → TakenAlong a.tokens rest
  | .wildcard, rest, hr => by
    have hf : fitsArguments (.mark '?') rest.head? = true := by
      rcases hr with hr | hr <;> rw [hr] <;> rfl
    rw [WrittenArgument.tokens]
    exact takenAlong_nil.cons (by decide) (by decide) hf
  | .type t, rest, _ => by
    rw [WrittenArgument.tokens]
    exact t.takenAlong rest
  | .bounded subject word bound more, rest, _ => by
    have hbounds := (bound.takenAlong _).append (takenAlong_furtherBounds more rest)
    rw [WrittenArgument.tokens]
    exact hbounds.bounded subject word

/-- The bounds behind the first one are taken along. -/
theorem takenAlong_furtherBounds : ∀ (bounds : List WrittenType) (rest : List Token),
    TakenAlong (furtherBounds bounds) rest
  | [], rest => by
    rw [furtherBounds]
    exact takenAlong_nil
  | t :: ts, rest => by
    have hbounds := (t.takenAlong _).append (takenAlong_furtherBounds ts rest)
    obtain ⟨w, us, ht⟩ := t.exists_cons
    rw [furtherBounds]
    refine hbounds.cons (by decide) (by decide) ?_
    rw [ht]
    rfl

/-- The search for the end does not give up inside a written list. -/
theorem takenAlong_argumentsInside : ∀ (args : List WrittenArgument) (rest : List Token),
    TakenAlong (argumentsInside args) (.mark '>' :: rest)
  | [], rest => by
    rw [argumentsInside]
    exact takenAlong_nil
  | a :: as, rest => by
    have hmore := takenAlong_furtherArguments as rest
    have hend := endsArgument_furtherArguments as rest
    rw [argumentsInside]
    exact (a.takenAlong _ hend).append hmore

/-- The arguments behind the first one are taken along, up to the closing angle bracket. -/
theorem takenAlong_furtherArguments : ∀ (args : List WrittenArgument) (rest : List Token),
    TakenAlong (furtherArguments args) (.mark '>' :: rest)
  | [], rest => by
    rw [furtherArguments]
    exact takenAlong_nil
  | a :: as, rest => by
    have hmore := takenAlong_furtherArguments as rest
    have hend := endsArgument_furtherArguments as rest
    rw [furtherArguments]
    exact ((a.takenAlong _ hend).append hmore).mark (by decide)

end

/-- A written list ends where it is closed. -/
theorem argumentList?_argumentsInside (args : List WrittenArgument) :
    argumentList? 0 (argumentsInside args ++ .mark '>' :: rest) =
      some (argumentsInside args, rest) := by
  rw [takenAlong_argumentsInside args rest, argumentList?_end, Option.map_some, List.append_nil]

/-- What is passed over on the way counts for nothing: the end of a list is the bracket that
counting angle brackets alone finds. -/
theorem splitClose_of_argumentList? (h : argumentList? d ts = some (inside, rest)) :
    splitClose '<' '>' d ts = some (inside, rest) := by
  fun_induction argumentList? d ts generalizing inside with
  | case1 => cases h
  | case2 d ts ih =>
    obtain ⟨⟨i, r⟩, hi, he⟩ := Option.map_eq_some_iff.1 h
    cases he
    rw [splitClose.eq_def]
    dsimp only
    rw [if_pos rfl, ih hi, Option.map_some]
  | case3 ts =>
    cases h
    rw [splitClose.eq_def]
    exact (if_neg (by decide)).trans (if_pos rfl)
  | case4 ts d ho ih =>
    obtain ⟨⟨i, r⟩, hi, he⟩ := Option.map_eq_some_iff.1 h
    cases he
    rw [splitClose.eq_def]
    dsimp only
    rw [if_neg ho, if_pos rfl, ih hi, Option.map_some]
  | case5 d t ts ho hc hf ih =>
    obtain ⟨⟨i, r⟩, hi, he⟩ := Option.map_eq_some_iff.1 h
    cases he
    rw [splitClose.eq_def]
    dsimp only
    rw [if_neg ho, if_neg hc, ih hi, Option.map_some]
  | case6 => cases h

/-! ## The words of a list -/

/-- The words of a list are those that stand in it. -/
theorem mem_wordsOf : w ∈ wordsOf ts ↔ .word w ∈ ts := by
  rw [wordsOf, List.mem_filterMap]
  constructor
  · rintro ⟨t, ht, hw⟩
    cases t with
    | word v => cases hw; exact ht
    | mark | ellipsis | doubleColon | literal => cases hw
  · exact fun h => ⟨_, h, rfl⟩

/-- The words of a list that ends stand in type position, and so does the word in front of it. -/
theorem mem_references_arguments (ha : argumentList? 0 ts = some (inside, rest))
    (hn : isKeyword name = false)
    (hm : .word name ∈ inside ∨ us.getLast? = some (.word name)) :
    name ∈ references (us ++ .mark '<' :: ts) := by
  have hwords : name ∈ wordsOf (us.getLast?.toList ++ inside) := by
    rw [mem_wordsOf, List.mem_append]
    rcases hm with hm | hm
    · exact .inr hm
    · rw [hm]
      exact .inl (List.mem_singleton_self _)
  rw [mem_references hn]
  refine mem_mentioned_append ?_
  rw [Option.or_none, namesAt, ha]
  exact hwords

variable {text fqn : String} {path : Path} {kind : SourceKind} {r : ClassRecord} {h : Header}
  {front : List Token} {args : List WrittenArgument}

/-- Lists between angle brackets are recognized. In every source that is read and has a written list
behind its imports, the search that starts at the opening bracket ends at the closing one, which is
the one that counting finds, and loses nothing of the list. All names in the list, at any depth, and
the name in front of it are found in type position. -/
theorem read_argumentList (hr : ClassRecord.read text path fqn kind = .ok r)
    (ht : tokens text.toList = .ok ts)
    (hh : header ts =
      .ok (h, front ++ .mark '<' :: (argumentsInside args ++ .mark '>' :: rest))) :
    Indexed.argumentsEnd (front ++ .mark '<' :: (argumentsInside args ++ .mark '>' :: rest)) 0
        front.length = some (front.length + 1 + (argumentsInside args).length) ∧
      argumentList? 0 (argumentsInside args ++ .mark '>' :: rest) =
        some (argumentsInside args, rest) ∧
      splitClose '<' '>' 0 (argumentsInside args ++ .mark '>' :: rest) =
        some (argumentsInside args, rest) ∧
      ∀ name, isKeyword name = false →
        .word name ∈ argumentsInside args ∨ front.getLast? = some (.word name) →
          name ∈ r.typeRefs := by
  have ha : argumentList? 0 (argumentsInside args ++ .mark '>' :: rest) =
      some (argumentsInside args, rest) := argumentList?_argumentsInside args
  refine ⟨?_, ha, splitClose_of_argumentList? ha, ?_⟩
  · have hat : Indexed.At (front ++ .mark '<' :: (argumentsInside args ++ .mark '>' :: rest))
        front.length (.mark '<' :: (argumentsInside args ++ .mark '>' :: rest)) :=
      ⟨front, rfl, rfl⟩
    rw [Indexed.argumentsEnd_open hat, ha, Option.map_some]
  · intro name hn hm
    obtain ⟨ms, -, he⟩ := typeRefs_of_read hr ht (exists_header_iff.1 ⟨h, hh, rfl⟩)
    rw [he, NameSet.mem_ofList, List.mem_append]
    exact .inl (mem_references_arguments ha hn hm)

end

/-- `<A extends m.B<int[], ?>.C & D[], ? super E>` -/
def nestedArguments : List WrittenArgument :=
  [.bounded (some { text := "A" }) .upper
      (.member (.applied (.member (.name { text := "m" }) { text := "B" })
        [.type (.array (.name { text := "int" })), .wildcard]) { text := "C" })
      [.array (.name { text := "D" })],
    .bounded none .lower (.name { text := "E" }) []]

/-- A source with that list, behind a comparison. -/
def nestedSource : String :=
  "import x.Y; class Z \x7b boolean b = i < j; " ++
    "F<A extends m.B<int[], ?>.C & D[], ? super E> f; \x7d"

/-- All names in the list are found, and so is the name in front. -/
theorem read_argumentList_nestedArguments :
    ∃ r h front rest,
      ClassRecord.read nestedSource ⟨"Z.java"⟩ "Z" .production = .ok r ∧
      tokens nestedSource.toList >>= header =
        .ok (h, front ++ .mark '<' :: (argumentsInside nestedArguments ++ .mark '>' :: rest)) ∧
      Indexed.argumentsEnd
          (front ++ .mark '<' :: (argumentsInside nestedArguments ++ .mark '>' :: rest)) 0
          front.length = some (front.length + 1 + (argumentsInside nestedArguments).length) ∧
      ∀ name ∈ ["A", "m", "B", "C", "D", "E", "F"], name ∈ r.typeRefs := by
  have hv : (tokens nestedSource.toList >>= header).toOption.any (fun x =>
      (x.2.take 11).getLast? = some (.word "F") &&
        (.mark '<' :: (argumentsInside nestedArguments ++ [.mark '>'])).isPrefixOf
          (x.2.drop 11)) = true := by
    decide +kernel
  obtain ⟨⟨h, body⟩, hx, hv⟩ := (Option.any_eq_true _ _).1 hv
  have hx := eq_ok_of_toOption hx
  obtain ⟨ts, ht, hh⟩ := eq_ok_of_bind hx
  rw [Bool.and_eq_true, decide_eq_true_eq] at hv
  obtain ⟨hlast, hlist⟩ := hv
  obtain ⟨rest, hrest⟩ := List.isPrefixOf_iff_prefix.1 hlist
  have hbody : body = body.take 11 ++
      .mark '<' :: (argumentsInside nestedArguments ++ .mark '>' :: rest) := by
    calc body = body.take 11 ++ body.drop 11 := (List.take_append_drop 11 body).symm
      _ = _ := by rw [← hrest]; simp
  have hr : (ClassRecord.read nestedSource ⟨"Z.java"⟩ "Z" .production).toOption.isSome = true := by
    decide +kernel
  obtain ⟨r, hr⟩ := Option.isSome_iff_exists.1 hr
  have hr := eq_ok_of_toOption hr
  rw [hbody] at hh hx
  obtain ⟨hend, -, -, hfound⟩ := read_argumentList hr ht hh
  refine ⟨r, h, _, rest, hr, hx, hend, ?_⟩
  have hnames : ∀ name ∈ ["A", "m", "B", "C", "D", "E", "F"], isKeyword name = false ∧
      (.word name ∈ argumentsInside nestedArguments ∨ name = "F") := by
    decide +kernel
  intro name hm
  obtain ⟨hn, hm⟩ := hnames name hm
  refine hfound name hn (hm.imp_right ?_)
  rintro rfl
  exact hlast

end TestImpact.Java
