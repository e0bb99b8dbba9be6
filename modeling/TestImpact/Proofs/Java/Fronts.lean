import TestImpact.Proofs.Java.Header
import TestImpact.Proofs.Java.Modifiers

/-!
# Fronts that are read alike whatever follows

Modifiers are dropped, and package and imports are read, with looks at the tokens that follow. Main
statements: a mark that belongs to no modifier is kept together with all that is kept in front of
it, whatever follows, unless an annotation in front of it is open (`keepsMark_dropModifiers`); and
what is read in front of the declarations does not depend on them (`exists_front_of_headerFrom`).
-/

namespace TestImpact.Java

/-- A mark that belongs to no modifier, to no name and to no parentheses of an annotation. -/
def EndsModifiers (c : Char) : Prop := c ∉ ['@', '.', '-', '(', ')']

instance {c : Char} : Decidable (EndsModifiers c) :=
  inferInstanceAs (Decidable (c ∉ ['@', '.', '-', '(', ')']))

/-- All parentheses that the list opens are closed in it, and so are `d` further ones. -/
def ClosesParentheses (d : Nat) (ts : List Token) : Prop :=
  (pairCount '(' ')').depth d ts = some 0

instance {d : Nat} {ts : List Token} : Decidable (ClosesParentheses d ts) :=
  inferInstanceAs (Decidable ((pairCount '(' ')').depth d ts = some 0))

/-- What `f` keeps of `ts`, in front of which `d` parentheses are open, it keeps in front of the
mark too, with the mark and all that follows. Otherwise a parenthesis is open behind `ts`: `f` keeps
nothing of it, and passes over the mark. -/
def KeepsMark (f : List Token → List Token) (c : Char) (d : Nat) (ts : List Token) : Prop :=
  (∀ us, f (ts ++ .mark c :: us) = f ts ++ .mark c :: us) ∨
    f ts = [] ∧ ¬ClosesParentheses d ts ∧ ∀ us, f (ts ++ .mark c :: us) <:+ us

section
variable {w : String} {c o : Char} {d e : Nat} {ts us front rest name body : List Token}
  {read h : Header}

/-! ## Parentheses -/

/-- What follows the segments of a name closes its parentheses if the list does. -/
theorem ClosesParentheses.afterSegments (h : ClosesParentheses 0 ts) :
    ClosesParentheses 0 (afterSegments ts) := by
  fun_induction Java.afterSegments ts with
  | case1 w r ih => exact ih h
  | case2 => exact h

/-- What follows a closing parenthesis closes its own if the list closes one more. -/
theorem ClosesParentheses.afterClose (h : ClosesParentheses 1 ts) :
    ClosesParentheses 0 (afterClose '(' ')' ts) := by
  rw [Java.afterClose]
  split
  · next inside rest hs =>
    have hin := depth_pairCount_add (depth_of_splitClose hs) 1
    rw [ClosesParentheses, append_of_splitClose hs, BracketCount.depth_append_of hin] at h
    exact h
  · rfl

/-- What follows an annotation closes its parentheses if the list does. -/
theorem ClosesParentheses.afterMarker (h : ClosesParentheses 0 ts) :
    ClosesParentheses 0 (afterMarker ts) := by
  have hs := h.afterSegments
  by_cases hr : (Java.afterSegments ts).head? = some (.mark '(')
  · obtain ⟨r, hr⟩ := List.head?_eq_some_iff.1 hr
    rw [hr] at hs
    rw [afterMarker_of_eq_cons hr]
    exact ClosesParentheses.afterClose hs
  · rwa [afterMarker_of_head?_ne hr]

/-! ## Modifiers -/

/-- A mark that ends modifiers is no mark of an annotation. -/
theorem EndsModifiers.ne (h : EndsModifiers c) (ho : o ∈ ['@', '.', '-', '(', ')'] := by decide) :
    c ≠ o := by
  rintro rfl
  exact h ho

/-- A mark starts no pair of another mark and a word, and ends none. -/
theorem append_mark_ne (hc : c ≠ o) (h : ∀ w r, ts ≠ .mark o :: .word w :: r) (w : String)
    (r : List Token) : ts ++ .mark c :: us ≠ .mark o :: .word w :: r := by
  intro he
  rcases ts with - | ⟨t, - | ⟨u, ts⟩⟩
  · exact hc (Token.mark.inj (List.cons.inj he).1)
  · cases (List.cons.inj he).2
  · obtain ⟨ht, he⟩ := List.cons.inj he
    obtain ⟨hu, -⟩ := List.cons.inj he
    exact h w ts (by rw [ht, hu])

/-- The reader of a closing parenthesis keeps the mark or finds no closing one in front of it. -/
theorem keepsMark_afterClose (hc : c ≠ ')') (ts : List Token) :
    KeepsMark (afterClose '(' ')') c 1 ts := by
  cases hs : splitClose '(' ')' 0 ts with
  | some s =>
    obtain ⟨inside, rest⟩ := s
    refine .inl fun us => ?_
    rw [afterClose, splitClose_append_of_eq_some (by decide) hs, afterClose, hs]
  | none =>
    refine .inr ⟨by rw [afterClose, hs], fun h => ?_, fun us => ?_⟩
    · obtain ⟨e, he⟩ := exists_depth_of_splitClose hs
      cases (depth_pairCount_add he 1).symm.trans h
    · rw [afterClose]
      split
      · next inside rest hi =>
        obtain ⟨front, hf⟩ := exists_append_of_splitClose (by decide) hs hi
        cases front with
        | nil => exact absurd (Token.mark.inj (List.cons.inj hf).1) hc
        | cons t front =>
          obtain ⟨-, rfl⟩ := List.cons.inj hf
          exact ⟨front ++ [.mark ')'], by simp⟩
      · exact List.nil_suffix

/-- The reader of a dotted name stops in front of the mark. -/
theorem afterSegments_mark (hc : EndsModifiers c) :
    afterSegments (ts ++ .mark c :: us) = afterSegments ts ++ .mark c :: us := by
  fun_induction afterSegments ts with
  | case1 w r ih => exact ih
  | case2 ts hts =>
    rw [afterSegments]
    exact append_mark_ne hc.ne hts

/-- The reader of an annotation keeps the mark or finds no closing parenthesis in front of it. -/
theorem keepsMark_afterMarker (hc : EndsModifiers c) (ts : List Token) :
    KeepsMark afterMarker c 0 ts := by
  by_cases hr : (afterSegments ts).head? = some (.mark '(')
  · obtain ⟨r, hr⟩ := List.head?_eq_some_iff.1 hr
    have hmark : ∀ us, afterMarker (ts ++ .mark c :: us) =
        afterClose '(' ')' (r ++ .mark c :: us) := by
      intro us
      refine afterMarker_of_eq_cons ?_
      rw [afterSegments_mark hc, hr, List.cons_append]
    rw [KeepsMark, afterMarker_of_eq_cons hr]
    simp only [hmark]
    refine (keepsMark_afterClose hc.ne r).imp_right fun hk => ⟨hk.1, fun h => hk.2.1 ?_, hk.2.2⟩
    have hs := h.afterSegments
    rw [hr] at hs
    exact hs
  · refine .inl fun us => ?_
    rw [afterMarker_of_head?_ne hr, afterMarker_of_head?_ne, afterSegments_mark hc]
    rw [afterSegments_mark hc]
    cases ha : afterSegments ts with
    | nil => simpa using hc.ne
    | cons t r =>
      rw [ha] at hr
      exact hr

/-- A word that is kept is kept in front of a mark. -/
theorem dropModifiers_word (hc : c ≠ '-') (hm : ¬isModifier w = true)
    (hn : ¬(w = "non" ∧ ts.take 2 = [.mark '-', .word "sealed"])) :
    dropModifiers (.word w :: ts ++ .mark c :: us) = .word w :: ts ++ .mark c :: us := by
  have hn' : ¬(w = "non" ∧ (ts ++ .mark c :: us).take 2 = [.mark '-', .word "sealed"]) := by
    rintro ⟨hw, ht⟩
    rcases ts with - | ⟨t, - | ⟨u, ts⟩⟩
    · exact hc (Token.mark.inj (List.cons.inj ht).1)
    · cases (List.cons.inj ht).2
    · exact hn ⟨hw, ht⟩
  rw [List.cons_append, dropModifiers, if_neg hn', if_neg hm]

/-- So is a list that starts with no word and no annotation. -/
theorem dropModifiers_other (hc : c ≠ '@') (ha : ∀ w r, ts ≠ .mark '@' :: .word w :: r)
    (hw : ∀ w r, ts ≠ .word w :: r) :
    dropModifiers (ts ++ .mark c :: us) = ts ++ .mark c :: us := by
  rw [dropModifiers]
  · exact append_mark_ne hc ha
  · intro w r he
    cases ts with
    | nil => cases (List.cons.inj he).1
    | cons t ts => exact hw w ts (by rw [(List.cons.inj he).1])

/-- A mark that belongs to no modifier is kept behind all that is kept, whatever follows, unless a
parenthesis of an annotation in front of it is open. -/
theorem keepsMark_dropModifiers (hc : EndsModifiers c) (ts : List Token) :
    KeepsMark dropModifiers c 0 ts := by
  rw [KeepsMark]
  fun_induction dropModifiers ts with
  | case1 r =>
    refine .inl fun us => ?_
    rw [List.cons_append, List.cons_append, dropModifiers, if_pos rfl]
  | case2 name r hn _ ih =>
    have hmark : ∀ us, dropModifiers (.mark '@' :: .word name :: r ++ .mark c :: us) =
        dropModifiers (afterMarker (r ++ .mark c :: us)) := fun us => dropModifiers_marker hn
    rcases keepsMark_afterMarker hc r with hk | ⟨hnil, ho, hk⟩
    · simp only [hmark, hk]
      exact ih.imp_right fun hi => ⟨hi.1, fun h => hi.2.1 (ClosesParentheses.afterMarker h), hi.2.2⟩
    · refine .inr ⟨?_, ho, fun us => ?_⟩
      · rw [hnil, dropModifiers]
        all_goals simp
      · rw [hmark]
        exact (dropModifiers_suffix _).trans (hk us)
  | case3 w r hw ih =>
    obtain ⟨rfl, ht⟩ := hw
    have hr : r = .mark '-' :: .word "sealed" :: r.drop 2 := by
      rw [← List.take_append_drop 2 r, ht]
      rfl
    have hmark : ∀ us, dropModifiers (.word "non" :: r ++ .mark c :: us) =
        dropModifiers (r.drop 2 ++ .mark c :: us) := by
      intro us
      rw [hr]
      exact dropModifiers_nonSealed
    simp only [hmark]
    refine ih.imp_right fun hi => ⟨hi.1, fun h => hi.2.1 ?_, hi.2.2⟩
    rw [hr] at h
    exact h
  | case4 w r _ hm ih =>
    have hmark : ∀ us, dropModifiers (.word w :: r ++ .mark c :: us) =
        dropModifiers (r ++ .mark c :: us) := fun us => dropModifiers_modifier hm
    simp only [hmark]
    exact ih
  | case5 w r hn hm => exact .inl fun us => dropModifiers_word hc.ne hm hn
  | case6 ts ha hw => exact .inl fun us => dropModifiers_other hc.ne ha hw

/-- So what is dropped in front of such a mark does not depend on what follows it. -/
theorem dropModifiers_mark (hc : EndsModifiers c)
    (h : dropModifiers (ts ++ .mark c :: rest) = front ++ .mark c :: rest) (us : List Token) :
    dropModifiers (ts ++ .mark c :: us) = front ++ .mark c :: us := by
  rcases keepsMark_dropModifiers hc ts with hk | ⟨-, -, hk⟩
  · have he := hk rest
    rw [h] at he
    rw [hk us, List.append_cancel_right he]
  · have hlen := (hk rest).length_le
    rw [h, List.length_append, List.length_cons] at hlen
    omega

/-- Nor does what is dropped in front of a list that holds such a mark depend on what follows. -/
theorem dropModifiers_append (hc : EndsModifiers c) (hm : .mark c ∈ dropModifiers ts) :
    dropModifiers (ts ++ us) = dropModifiers ts ++ us := by
  obtain ⟨front, rest, he⟩ := List.append_of_mem hm
  obtain ⟨dropped, hts⟩ := dropModifiers_suffix ts
  have hsplit : ts = dropped ++ front ++ .mark c :: rest := by
    rw [List.append_assoc, ← he, hts]
  have hd : dropModifiers (dropped ++ front ++ .mark c :: rest) = front ++ .mark c :: rest := by
    rw [← hsplit, he]
  have hus := dropModifiers_mark hc hd (rest ++ us)
  rw [he, hsplit]
  simpa using hus

/-! ## Package and imports -/

/-- A package statement is one whatever follows its semicolon. -/
theorem exists_front_of_startsPackage (hp : StartsPackage ts (name ++ .mark ';' :: rest)) :
    ∃ front, ts = front ++ .mark ';' :: rest ∧
      ∀ us, StartsPackage (front ++ .mark ';' :: us) (name ++ .mark ';' :: us) := by
  rcases hp with rfl | ⟨hh, hd⟩
  · exact ⟨.word "package" :: name, rfl, fun us => .inl rfl⟩
  · obtain ⟨dropped, hts⟩ := dropModifiers_suffix ts
    have hsplit : ts = dropped ++ .word "package" :: name ++ .mark ';' :: rest := by
      rw [← hts, hd, List.append_assoc, List.cons_append]
    refine ⟨dropped ++ .word "package" :: name, hsplit, fun us => .inr ⟨?_, ?_⟩⟩
    · rw [hsplit] at hh
      cases dropped <;> exact hh
    · have hd' : dropModifiers (dropped ++ .word "package" :: name ++ .mark ';' :: rest) =
          .word "package" :: name ++ .mark ';' :: rest := by
        rw [← hsplit, hd, List.cons_append]
      exact dropModifiers_mark (by decide) hd' us

/-- What is read in front of a body does not depend on it, as long as it starts with nothing that
belongs there. -/
theorem exists_front_of_headerFrom (hh : headerFrom read ts = .ok (h, body)) :
    StartsBody body ∧ ∃ front, ts = front ++ body ∧
      ∀ body', StartsBody body' → headerFrom read (front ++ body') = .ok (h, body') := by
  fun_induction headerFrom read ts with
  | case1 read ts hs =>
    cases hh
    exact ⟨startsBody_of_statement? hs, [], rfl, fun _ hb => headerFrom_body hb⟩
  | case2 read ts r hs _ ih =>
    obtain ⟨hb, front, rfl, hf⟩ := ih hh
    obtain rfl : ts = .mark ';' :: (front ++ body) := fronts_of_statement? hs
    refine ⟨hb, .mark ';' :: front, rfl, fun body' hb' => ?_⟩
    rw [List.cons_append, headerFrom_semicolon, hf body' hb']
  | case3 => cases hh
  | case4 read ts s r hne hs text rest hu _ _ ih =>
    obtain ⟨hb, behind, rfl, hf⟩ := ih hh
    obtain ⟨name, hn, rfl, rfl⟩ := eq_append_of_untilSemicolon? hu
    refine ⟨hb, ?_⟩
    cases s with
    | empty => exact (hne rfl).elim
    | package =>
      obtain ⟨front, rfl, hp⟩ := exists_front_of_startsPackage (fronts_of_statement? hs)
      refine ⟨front ++ .mark ';' :: behind, by simp, fun body' hb' => ?_⟩
      rw [List.append_assoc, List.cons_append, headerFrom_package (hp _) hn]
      exact hf body' hb'
    | importing isStatic =>
      obtain ⟨rfl, hw⟩ := fronts_of_statement? hs
      have hw' : isStatic = false → name.head? ≠ some (.word "static") := by
        intro he
        cases name with
        | nil => simp
        | cons t name => exact hw he
      refine ⟨importWords isStatic ++ (name ++ .mark ';' :: behind), by simp, fun body' hb' => ?_⟩
      rw [List.append_assoc, List.append_assoc, List.cons_append, headerFrom_import isStatic hn hw']
      exact hf body' hb'

end

end TestImpact.Java
