import TestImpact.Proofs.Java.ArgumentLists
import TestImpact.Proofs.Java.DeclaredNames
import TestImpact.Proofs.Java.DeclaredPieces
import TestImpact.Proofs.Java.LegibleTexts
import TestImpact.Proofs.Java.MentionedNames

/-!
# Names of annotations

The name of an annotation is no type that a source refers to, but the reader looks at one token in
front of a name only, takes all words of a list of type arguments, and reads raw types from texts in
which words are glued. Main statements: where a name that only annotations have is taken for a type
(`read_annotationName`), and sources in which it is (`exists_annotation_read`).
-/

namespace TestImpact.Java

/-- The list, given from its end, ends inside the name of an annotation: in an `@`, or in segments
and dots behind one. -/
def annotates : List Token → Bool
  | .mark '@' :: _ => true
  | .mark '.' :: .word _ :: r => annotates r
  | _ => false

/-- Wherever the word stands, it is a segment of the name of an annotation. -/
def OnlyAnnotates (x : String) (ts : List Token) : Prop :=
  ∀ n < ts.length, ts[n]? = some (.word x) → annotates (ts.take n).reverse = true

instance {x : String} {ts : List Token} : Decidable (OnlyAnnotates x ts) :=
  inferInstanceAs (Decidable (∀ n < _, _))

/-- What can stand behind a name that is taken for a type behind a dot. -/
inductive FollowsType (x : String) : List Token → Prop
  | name {w : String} {back : List Token} : isKeyword w = false → FollowsType x (.word w :: back)
  | varargs {back : List Token} : FollowsType x (.ellipsis :: back)
  | methodReference {back : List Token} : FollowsType x (.doubleColon :: back)
  | array {back : List Token} : FollowsType x (.mark '[' :: .mark ']' :: back)
  | classLiteral {back : List Token} : FollowsType x (.mark '.' :: .word "class" :: back)
  | member {m : String} {back : List Token} : isCapitalized x = true → isCapitalized m = true →
      FollowsType x (.mark '.' :: .word m :: back)

/-- The word stands behind a dot and in front of what can follow a type. -/
def SeenBehindDot (x : String) (ts : List Token) : Prop :=
  ∃ front back, ts = front ++ .mark '.' :: .word x :: back ∧ FollowsType x back

/-- The word stands in a list of type arguments that is found, or in front of one. -/
def SeenAtArguments (x : String) (ts : List Token) : Prop :=
  ∃ front inside rest, ts = front ++ .mark '<' :: (inside ++ .mark '>' :: rest) ∧
    argumentList? 0 (inside ++ .mark '>' :: rest) = some (inside, rest) ∧
      (.word x ∈ inside ∨ front.getLast? = some (.word x))

/-- A piece whose text has nothing of annotations in it: its words can be told apart, and it neither
holds an `@` nor goes on with a name. -/
structure IsBare (piece : List Token) : Prop extends Legible piece where
  no_at : .mark '@' ∉ piece
  head?_ne : piece.head? ≠ some (.mark '.')

/-- The types that a source declares something with, as they are written. -/
def ClassRecord.rawTypes (r : ClassRecord) : List String :=
  r.fieldTypes ++ r.parameterTypes ++ r.returnTypes ++ r.declarations.flatMap TypeDecl.supertypes

/-- A raw type is the text of a piece that is not bare, and the characters of the word stand in this
text where the name of a type is looked for. -/
def SeenInText (x : String) (r : ClassRecord) (ts : List Token) : Prop :=
  ∃ piece, IsPieceOf piece ts ∧ joinTokens piece ∈ r.rawTypes ∧ ¬IsBare piece ∧
    (NamedInFront x (charsOf piece) ∨ NamedInArguments x (charsOf piece))

section
variable {x : String} {prev : Option Token} {t : Token}
  {ts us front back piece before after : List Token}

/-! ## Inside the name of an annotation -/

/-- Each place of the word is inside the name of an annotation. -/
theorem OnlyAnnotates.annotates (h : OnlyAnnotates x (front ++ .word x :: back)) :
    annotates front.reverse = true := by
  have hf := h front.length (by simp) (by simp)
  rwa [List.take_left'] at hf
  rfl

/-- Inside the name of an annotation, the last token is its `@` or a dot. -/
theorem getLast?_of_annotates (h : annotates front.reverse = true) :
    front.getLast? = some (.mark '@') ∨ front.getLast? = some (.mark '.') := by
  rw [← List.head?_reverse]
  generalize front.reverse = ts at h
  rw [Java.annotates.eq_def] at h
  split at h
  · exact .inl rfl
  · exact .inr rfl
  · cases h

/-- A list that ends in anything but an `@` or a dot does not end inside such a name. -/
theorem annotates_of_ne (ha : t ≠ .mark '@') (hd : t ≠ .mark '.') :
    annotates (t :: ts) = false := by
  rw [annotates.eq_def]
  split
  · next h => exact absurd (List.cons.inj h).1 ha
  · next h => exact absurd (List.cons.inj h).1 hd
  · rfl

/-- Nothing in a piece without an `@` belongs to the name of an annotation, if the piece stands
behind a token that cuts and does not go on with a name. -/
theorem annotates_piece (hb : ∀ t ∈ before.getLast?, Cuts t) (ha : .mark '@' ∉ front)
    (hh : front.head? ≠ some (.mark '.')) :
    annotates (before ++ front).reverse = false := by
  rw [← List.head?_reverse] at hb
  rw [← List.mem_reverse] at ha
  rw [← List.getLast?_reverse] at hh
  rw [List.reverse_append]
  generalize before.reverse = us at hb ⊢
  generalize front.reverse = ts at ha hh ⊢
  fun_induction annotates ts with
  | case1 => exact absurd List.mem_cons_self ha
  | case2 w r ih =>
    refine ih (fun hm => ha (List.mem_cons_of_mem _ (List.mem_cons_of_mem _ hm))) fun hl => hh ?_
    rw [List.getLast?_cons, List.getLast?_cons, hl]
    rfl
  | case3 ts h₁ h₂ =>
    cases ts with
    | nil =>
      cases us with
      | nil => rfl
      | cons u us => exact annotates_of_ne (hb u rfl).1 (hb u rfl).2
    | cons t ts =>
      by_cases hd : t = .mark '.'
      · subst hd
        cases ts with
        | nil => exact absurd rfl hh
        | cons u r =>
          cases u with
          | word w => exact absurd rfl (h₂ w r)
          | mark | ellipsis | doubleColon | literal => rfl
      · exact annotates_of_ne (fun he => h₁ ts (by rw [he])) hd

/-! ## Where a name is looked for -/

/-- What is in type position is put there by some token in its place. -/
theorem mem_mentioned_iff : x ∈ mentioned prev ts ↔
    ∃ front t back, ts = front ++ t :: back ∧ x ∈ namesAt (front.getLast?.or prev) t back := by
  constructor
  · intro h
    induction ts generalizing prev with
    | nil => cases h
    | cons t ts ih =>
      rcases List.mem_append.1 h with h | h
      · exact ⟨[], t, ts, rfl, h⟩
      · obtain ⟨front, u, back, rfl, hu⟩ := ih h
        refine ⟨t :: front, u, back, rfl, ?_⟩
        cases front with
        | nil => exact hu
        | cons v front => exact hu
  · rintro ⟨front, t, back, rfl, h⟩
    exact mem_mentioned_append h

/-- The name that a list starts with is a word of it, with whole segments in front. -/
theorem exists_of_dottedName {last : Option String} (h : (dottedName last ts).1 = some x) :
    last = some x ∨ ∃ front back, ts = front ++ .word x :: back ∧
      ∀ us, annotates (front.reverse ++ us) = annotates us := by
  fun_induction dottedName last ts with
  | case1 => exact .inl h
  | case2 last n m r hn ih =>
    refine .inr ?_
    rcases ih h with he | ⟨front, back, hr, hfront⟩
    · cases he
      exact ⟨[], _, rfl, fun _ => rfl⟩
    · refine ⟨.word n :: .mark '.' :: front, back, by rw [hr]; rfl, fun us => ?_⟩
      rw [List.reverse_cons, List.reverse_cons, List.append_assoc, List.append_assoc, hfront]
      rfl
  | case3 => exact .inl h
  | case4 =>
    cases h
    exact .inr ⟨[], _, rfl, fun _ => rfl⟩
  | case5 => exact .inl h

/-- What follows a dotted name is an end of the list. -/
theorem suffix_dottedName (last : Option String) (ts : List Token) :
    (dottedName last ts).2 <:+ ts := by
  fun_induction dottedName last ts with
  | case2 last n m r _ ih => exact ih.trans ((List.suffix_cons ..).trans (List.suffix_cons ..))
  | case4 => exact List.suffix_cons ..
  | case1 | case3 | case5 => exact List.suffix_refl _

/-- What follows type arguments is an end of the list. -/
theorem suffix_of_afterArguments? (h : afterArguments? ts = some us) : us <:+ ts := by
  rw [afterArguments?.eq_def] at h
  split at h
  · obtain ⟨⟨inside, rest⟩, hl, rfl⟩ := Option.map_eq_some_iff.1 h
    rw [append_of_argumentList? hl]
    exact ((List.suffix_cons ..).trans (List.suffix_append ..)).trans (List.suffix_cons ..)
  · cases h
    exact List.suffix_refl _

/-- What is listed starts the list, or it stands behind a separator. -/
theorem exists_of_mem_listedTypes (h : x ∈ listedTypes ts) :
    ∃ front us, ts = front ++ us ∧ (dottedName none us).1 = some x ∧
      ∀ t ∈ front.getLast?, t = .mark ',' ∨ t = .mark '&' := by
  have hfirst : ∀ {ts us n}, dottedName none ts = (some n, us) → x = n →
      ∃ front us, ts = front ++ us ∧ (dottedName none us).1 = some x ∧
        ∀ t ∈ front.getLast?, t = .mark ',' ∨ t = .mark '&' := by
    rintro ts us n hn rfl
    exact ⟨[], ts, rfl, by rw [hn], nofun⟩
  fun_induction listedTypes ts with
  | case1 => cases h
  | case2 ts n us hn t rest ha hlt ht ih =>
    rcases List.mem_cons.1 h with hx | h
    · exact hfirst hn hx
    obtain ⟨front, back, rfl, hb, hf⟩ := ih h
    have hsuffix : t :: (front ++ back) <:+ ts := by
      have hname := suffix_dottedName none ts
      rw [hn] at hname
      exact (suffix_of_afterArguments? ha).trans hname
    obtain ⟨before, rfl⟩ := hsuffix
    refine ⟨before ++ [t] ++ front, back, by simp, hb, forall_getLast?_append (fun u hu => ?_) hf⟩
    rw [List.getLast?_concat] at hu
    cases hu
    exact ht
  | case3 ts n us hn => exact hfirst hn (List.mem_singleton.1 h)
  | case4 ts n us hn => exact hfirst hn (List.mem_singleton.1 h)

/-- A name that is looked for starts behind a token, which is not inside the name of an annotation,
so the name has no segment of one. -/
theorem not_onlyAnnotates_of_dottedName (ha : t ≠ .mark '@') (hd : t ≠ .mark '.')
    (h : (dottedName none us).1 = some x) : ¬OnlyAnnotates x (front ++ t :: us) := by
  intro ho
  obtain ⟨pre, back, rfl, hpre⟩ := (exists_of_dottedName h).resolve_left nofun
  have hfront : front ++ t :: (pre ++ .word x :: back) =
      (front ++ t :: pre) ++ .word x :: back := by simp
  rw [hfront] at ho
  have hn := ho.annotates
  rw [List.reverse_append, List.reverse_cons, List.append_assoc, hpre, List.singleton_append,
    annotates_of_ne ha hd] at hn
  cases hn

/-- Nor has a name that is listed behind such a token. -/
theorem not_onlyAnnotates_of_listedTypes (ha : t ≠ .mark '@') (hd : t ≠ .mark '.')
    (h : x ∈ listedTypes us) : ¬OnlyAnnotates x (front ++ t :: us) := by
  obtain ⟨pre, back, rfl, hx, hpre⟩ := exists_of_mem_listedTypes h
  rcases pre.eq_nil_or_concat with rfl | ⟨pre, u, rfl⟩
  · exact not_onlyAnnotates_of_dottedName ha hd hx
  · have hu : u = .mark ',' ∨ u = .mark '&' := hpre u (by simp)
    have hfront : front ++ t :: (pre ++ [u] ++ back) = (front ++ t :: pre) ++ u :: back := by simp
    rw [List.concat_eq_append, hfront]
    refine not_onlyAnnotates_of_dottedName ?_ ?_ hx
    all_goals rcases hu with rfl | rfl <;> decide

/-! ## What is found of the names of annotations -/

/-- What can follow a type behind a dot is what the reader takes for it. -/
theorem followsType_iff :
    FollowsType x us ↔ isTypePosition (some (.mark '.')) x us.head? us[1]? = true := by
  constructor
  · intro h
    cases h with
    | name hw => simp [isTypePosition, hw]
    | varargs | methodReference | array | classLiteral => rfl
    | member hx hm => simp [isTypePosition, hx, hm]
  · intro h
    rw [isTypePosition.eq_def] at h
    split at h
    case h_1 w he =>
      obtain ⟨r, rfl⟩ := List.head?_eq_some_iff.1 he
      exact .name (by simpa using h)
    case h_2 he =>
      obtain ⟨r, rfl⟩ := List.head?_eq_some_iff.1 he
      exact .varargs
    case h_3 he =>
      obtain ⟨r, rfl⟩ := List.head?_eq_some_iff.1 he
      exact .methodReference
    case h_4 he =>
      obtain ⟨r, rfl⟩ := List.head?_eq_some_iff.1 he
      have hr : r.head? = some (.mark ']') := by simpa [List.head?_eq_getElem?] using h
      obtain ⟨r, rfl⟩ := List.head?_eq_some_iff.1 hr
      exact .array
    case h_5 he =>
      obtain ⟨r, rfl⟩ := List.head?_eq_some_iff.1 he
      split at h
      · next m hm =>
        have hr : r.head? = some (.word m) := by simpa [List.head?_eq_getElem?] using hm
        obtain ⟨r, rfl⟩ := List.head?_eq_some_iff.1 hr
        simp only [Bool.or_eq_true, Bool.and_eq_true, decide_eq_true_eq] at h
        rcases h with rfl | ⟨hx, hm⟩
        · exact .classLiteral
        · exact .member hx hm
      · cases h
    case h_6 | h_7 => simp at h
    case h_8 => cases h

/-- A name that only annotations have stands in type position behind a dot or at a list of type
arguments, and nowhere else. -/
theorem mem_mentioned_of_onlyAnnotates (hn : isKeyword x = false) (ho : OnlyAnnotates x ts) :
    x ∈ mentioned none ts ↔ SeenBehindDot x ts ∨ SeenAtArguments x ts := by
  constructor
  · intro h
    obtain ⟨front, t, back, rfl, hx⟩ := mem_mentioned_iff.1 h
    rw [Option.or_none, namesAt.eq_def] at hx
    split at hx
    case h_1 =>
      split at hx
      · next inside rest ha =>
        rw [mem_wordsOf, List.mem_append, Option.mem_toList, or_comm] at hx
        obtain rfl := append_of_argumentList? ha
        exact .inr ⟨front, inside, rest, rfl, ha, hx⟩
      · cases hx
    case h_2 | h_3 =>
      exact absurd ho (not_onlyAnnotates_of_dottedName (by simp) (by simp) (Option.mem_toList.1 hx))
    case h_4 | h_5 | h_6 =>
      exact absurd ho (not_onlyAnnotates_of_listedTypes (by simp) (by simp) hx)
    case h_7 =>
      split at hx
      · next hp =>
        obtain rfl := List.mem_singleton.1 hx
        simp only [Bool.and_eq_true, decide_eq_true_eq] at hp
        have hdot := (getLast?_of_annotates ho.annotates).resolve_left hp.1
        rw [hdot] at hp
        obtain ⟨before, hbefore⟩ := List.getLast?_eq_some_iff.1 hdot
        refine .inl ⟨before, back, by rw [hbefore]; simp, followsType_iff.2 hp.2⟩
      · cases hx
    case h_8 => cases hx
  · rintro (⟨front, back, rfl, hf⟩ | ⟨front, inside, rest, rfl, ha, hx⟩)
    · have hfront : front ++ .mark '.' :: .word x :: back =
          (front ++ [.mark '.']) ++ .word x :: back := by simp
      rw [hfront]
      refine mem_mentioned_word hn ?_ ?_
      · rw [List.getLast?_concat]
        decide
      · rw [List.getLast?_concat]
        exact followsType_iff.1 hf
    · exact (mem_references hn).1 (mem_references_arguments ha hn hx)

/-- A bare piece of the source holds no word that only annotates. -/
theorem not_onlyAnnotates_of_isPieceOf (hp : IsPieceOf piece ts) (hb : IsBare piece)
    (hx : .word x ∈ piece) : ¬OnlyAnnotates x ts := by
  intro ho
  obtain ⟨before, after, rfl, hcut⟩ := hp
  obtain ⟨front, back, rfl⟩ := List.append_of_mem hx
  have ha : .mark '@' ∉ front := fun hm => hb.no_at (List.mem_append_left _ hm)
  have hh : front.head? ≠ some (.mark '.') := by
    have hpiece := hb.head?_ne
    rw [List.head?_append] at hpiece
    exact fun he => hpiece (by rw [he]; rfl)
  have hsplit : before ++ ((front ++ .word x :: back) ++ after) =
      (before ++ front) ++ .word x :: (back ++ after) := by simp
  rw [hsplit] at ho
  have hn := ho.annotates
  rw [annotates_piece hcut ha hh] at hn
  cases hn

variable {text fqn : String} {path : Path} {kind : SourceKind} {r : ClassRecord}
  {imports : List Import} {body : List Token}

/-- The raw types of a source are those that its members are declared with. -/
theorem rawTypes_of_read {ms : List Member} (hr : ClassRecord.read text path fqn kind = .ok r)
    (ht : tokens text.toList = .ok ts) (ho : Opens ts imports body) (hm : members body = .ok ms) :
    r.rawTypes = declaredTypes ms := by
  obtain ⟨h, hp⟩ := exists_readParts ht ho
  rw [ClassRecord.read, hp, hm] at hr
  cases hr
  rfl

/-- The tokens behind the imports can be written as they are. -/
theorem isLexeme_of_opens (ht : tokens text.toList = .ok ts) (ho : Opens ts imports body) :
    ∀ t ∈ body, t.isLexeme = true := by
  obtain ⟨h, hh, -⟩ := exists_header_iff.2 ho
  obtain ⟨-, front, rfl, -⟩ := exists_front_of_headerFrom hh
  exact fun t hm => isLexeme_of_tokens ht t (List.mem_append_right _ hm)

/-- Where a word that is nothing but a segment of the names of annotations is taken for a type:
exactly behind a dot in front of what can follow a type, in and in front of the lists of type
arguments that are found, and in the texts of raw types that are not bare. Nowhere else is an
annotation taken for a type, with or without arguments, on members, parameters or variables. -/
theorem read_annotationName (i : Identifier) (hr : ClassRecord.read text path fqn kind = .ok r)
    (ht : tokens text.toList = .ok ts) (ho : Opens ts imports body)
    (ha : OnlyAnnotates i.text body) :
    i.text ∈ r.typeRefs ↔
      SeenBehindDot i.text body ∨ SeenAtArguments i.text body ∨ SeenInText i.text r body := by
  obtain ⟨ms, hm, href⟩ := typeRefs_of_read hr ht ho
  have hraws := rawTypes_of_read hr ht ho hm
  rw [href, NameSet.mem_ofList, List.mem_append, mem_references i.not_isKeyword,
    mem_mentioned_of_onlyAnnotates i.not_isKeyword ha, or_assoc, List.mem_flatMap, ← hraws]
  refine or_congr_right (or_congr_right ?_)
  constructor
  · rintro ⟨raw, hraw, hx⟩
    obtain ⟨piece, rfl, hp⟩ := isTextIn_of_members hm raw (hraws ▸ hraw)
    refine ⟨piece, hp, hraw, fun hb => ?_, by rwa [← toList_joinTokens, ← mem_mentionedBy_iff]⟩
    have hlex : ∀ t ∈ piece, t.isLexeme = true := by
      obtain ⟨before, after, rfl, -⟩ := hp
      exact fun t hm => isLexeme_of_opens ht ho t (by simp [hm])
    exact not_onlyAnnotates_of_isPieceOf hp hb (word_mem_of_mentionedBy hb.toLegible hlex i hx) ha
  · rintro ⟨piece, -, hraw, -, hx⟩
    rw [← toList_joinTokens, ← mem_mentionedBy_iff] at hx
    exact ⟨_, hraw, hx⟩

end

/-- Whether a word of a source only annotates is told by a look at its tokens. -/
theorem exists_read_of_any {text name : String} {P : ClassRecord → Prop} [DecidablePred P]
    (hr : (ClassRecord.read text ⟨"C.java"⟩ "p.C" .production).toOption.any (fun r => P r) = true)
    (hh : (tokens text.toList >>= header).toOption.any
      (fun x => .word name ∈ x.2 ∧ OnlyAnnotates name x.2) = true) :
    ∃ r ts imports body, ClassRecord.read text ⟨"C.java"⟩ "p.C" .production = .ok r ∧
      tokens text.toList = .ok ts ∧ Opens ts imports body ∧ .word name ∈ body ∧
      OnlyAnnotates name body ∧ P r := by
  have hb : ∃ ts imports body, tokens text.toList = .ok ts ∧ Opens ts imports body ∧
      decide (.word name ∈ body ∧ OnlyAnnotates name body) = true :=
    exists_opens_of_header hh
  obtain ⟨r, hr, hp⟩ := (Option.any_eq_true _ _).1 hr
  obtain ⟨ts, imports, body, ht, ho, hb⟩ := hb
  obtain ⟨hm, ha⟩ := of_decide_eq_true hb
  exact ⟨r, ts, imports, body, eq_ok_of_toOption hr, ht, ho, hm, ha, of_decide_eq_true hp⟩

/-- An annotation on a field, on a parameter with its full name and arguments, and on a variable. -/
def annotated : String :=
  "package p; class C \x7b @Mock Repo repo; " ++
    "void m(@org.Mock(1) final Repo r) \x7b @Mock Repo l = r; \x7d \x7d"

/-- In `annotated`, the annotation is taken for a type nowhere. -/
theorem read_annotationName_annotated :
    ∃ r ts imports body,
      ClassRecord.read annotated ⟨"C.java"⟩ "p.C" .production = .ok r ∧
        tokens annotated.toList = .ok ts ∧ Opens ts imports body ∧ .word "Mock" ∈ body ∧
        OnlyAnnotates "Mock" body ∧ "Repo" ∈ r.typeRefs ∧ "Mock" ∉ r.typeRefs ∧
        ¬SeenBehindDot "Mock" body ∧ ¬SeenAtArguments "Mock" body ∧ ¬SeenInText "Mock" r body := by
  have hv : (ClassRecord.read annotated ⟨"C.java"⟩ "p.C" .production).toOption.any
      (fun r => "Repo" ∈ r.typeRefs ∧ "Mock" ∉ r.typeRefs) = true := by
    decide +kernel
  have hh : (tokens annotated.toList >>= header).toOption.any
      (fun x => .word "Mock" ∈ x.2 ∧ OnlyAnnotates "Mock" x.2) = true := by
    decide +kernel
  obtain ⟨r, ts, imports, body, hr, ht, ho, hm, ha, hrepo, hmock⟩ := exists_read_of_any hv hh
  have hseen := (not_congr (read_annotationName ⟨"Mock", by decide +kernel⟩ hr ht ho ha)).1 hmock
  rw [not_or, not_or] at hseen
  exact ⟨r, ts, imports, body, hr, ht, ho, hm, ha, hrepo, hmock, hseen⟩

/-- The source is read with the word among the names in type position, though the word is in it and
only annotates. -/
def TakesForType (text name : String) : Prop :=
  ∃ r ts imports body,
    ClassRecord.read text ⟨"C.java"⟩ "p.C" .production = .ok r ∧ tokens text.toList = .ok ts ∧
      Opens ts imports body ∧ .word name ∈ body ∧ OnlyAnnotates name body ∧ name ∈ r.typeRefs

/-- Names of annotations are taken for types: the last segment of a full name, a name in front of a
list of type parameters, one in a list of type arguments, and one with arguments in such a list. -/
theorem exists_annotation_read :
    TakesForType "package p; class C \x7b @a.b.Mock Repo repo; \x7d" "Mock" ∧
      TakesForType "package p; class C \x7b @Test <T> void m(T t) \x7b \x7d \x7d" "Test" ∧
      TakesForType "package p; class C \x7b void m() \x7b List<@Mock Repo> repos = null; \x7d \x7d"
        "Mock" ∧
      TakesForType "package p; class C \x7b List<@Size(1) Repo> repos; \x7d" "Size" := by
  refine ⟨?_, ?_, ?_, ?_⟩
  all_goals exact exists_read_of_any (by decide +kernel) (by decide +kernel)

end TestImpact.Java
