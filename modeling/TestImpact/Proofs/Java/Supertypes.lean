import Mathlib.Data.List.TakeWhile
import TestImpact.Proofs.Java.AngleBrackets
import TestImpact.Proofs.Java.Walk

/-!
# Supertypes read back

A list of supertypes is read up to the next word that ends such a list, wherever it stands. Main
statement: the supertypes of a header are read as they are written exactly if no type in its clauses
has an argument with an upper bound (`readSupertypes_eq_iff`). An upper bound is written with the
word of a clause. The word stands between angle brackets, so what is read on one side of it opens
more of them than it closes, and this is the text of no type.
-/

namespace TestImpact.Java

/-- Every word that ends a list of supertypes is `extends`, and behind at least `n` more opened than
closed angle brackets. -/
def Covers : Int → List Token → Prop
  | _, [] => True
  | n, t :: ts =>
    (endsSupertypes t = true → t = .word "extends" ∧ n ≤ 0) ∧ Covers (n - excess t.text.toList) ts

/-- The excess of all texts together. -/
def totalExcess (ss : List String) : Int := ss.foldr (fun s n => excess s.toList + n) 0

/-- No argument of the type has an upper bound. -/
def TypeExpr.NoUpper (t : TypeExpr) : Prop := ∀ m ∈ t.mentions, m.1 ≠ .upper

section
variable {t : Token} {ts us rest : List Token} {cs ds : List Char} {n : Int} {type : TypeExpr}
  {types : List TypeExpr}

/-! ## Where lists of supertypes end -/

/-- In a joined list, what the first part leaves open is open for the second. -/
theorem covers_append :
    Covers n (ts ++ us) ↔ Covers n ts ∧ Covers (n - excess (charsOf ts)) us := by
  induction ts generalizing n with
  | nil => simp [Covers, excess]
  | cons t ts ih =>
    rw [List.cons_append, Covers, Covers, ih, charsOf_cons, excess_append, Int.sub_sub, and_assoc]

/-- Where a list of supertypes ends inside. -/
theorem Covers.ends (h : Covers n (ts ++ t :: us)) (ht : endsSupertypes t = true) :
    t = .word "extends" ∧ n ≤ excess (charsOf ts) := by
  obtain ⟨he, hn⟩ := (covers_append.1 h).2.1 ht
  exact ⟨he, by omega⟩

/-- No other word than `extends` ends a list of supertypes. -/
theorem Covers.eq_extends (h : Covers n ts) (ht : t ∈ ts) (he : endsSupertypes t = true) :
    t = .word "extends" := by
  obtain ⟨front, back, rfl⟩ := List.append_of_mem ht
  exact (h.ends he).1

/-- Fewer open brackets may be asked for. -/
theorem Covers.mono {m : Int} (h : Covers n ts) (hm : m ≤ n) : Covers m ts := by
  induction ts generalizing m n with
  | nil => trivial
  | cons t ts ih =>
    obtain ⟨ht, hts⟩ := h
    refine ⟨fun he => ?_, ih hts (by omega)⟩
    obtain ⟨he, hn⟩ := ht he
    exact ⟨he, by omega⟩

/-- A word of a type ends no list of supertypes. -/
theorem endsSupertypes_word {w : String} (h : isIdentifier w = true ∨ isPrimitive w = true) :
    endsSupertypes (.word w) = false := by
  have hn : ∀ v ∈ ["extends", "implements", "permits"], w ≠ v := by
    rintro v hv rfl
    have hk : ∀ v ∈ ["extends", "implements", "permits"],
        isKeyword v = true ∧ isPrimitive v = false := by decide
    rcases h with h | h
    · exact Identifier.ne ⟨w, h⟩ (hk w hv).1 rfl
    · rw [(hk w hv).2] at h
      cases h
  simp [endsSupertypes, startsSupertypes, hn "extends" (by simp), hn "implements" (by simp),
    hn "permits" (by simp)]

/-- A mark ends no list of supertypes, and counts as an angle bracket if it is one. -/
theorem covers_mark {c : Char} : Covers n (.mark c :: ts) ↔ Covers (n - excess [c]) ts := by
  have ht : (Token.mark c).text.toList = [c] := String.toList_singleton c
  rw [Covers, ht]
  refine ⟨And.right, fun h => ⟨fun he => ?_, h⟩⟩
  cases he

/-- A type closes the angle brackets that it opens, and upper bounds stand between them. -/
theorem TypeExpr.covers (type : TypeExpr) :
    excess (charsOf type.tokens) = 0 ∧ Covers 1 type.tokens := by
  have hc : TypeClosed (fun ts => excess (charsOf ts) = 0 ∧ Covers 1 ts)
      (fun ts => excess (charsOf ts) = 0 ∧ Covers 0 ts) := by
    refine ⟨⟨rfl, trivial⟩, ?_, ?_, ⟨rfl, covers_mark.2 trivial⟩,
      ⟨rfl, covers_mark.2 (covers_mark.2 trivial)⟩, ?_, ?_, ⟨rfl, covers_mark.2 trivial⟩, ?_⟩
    · rintro a b ⟨ha, hca⟩ ⟨hb, hcb⟩
      refine ⟨?_, covers_append.2 ⟨hca, ?_⟩⟩
      · rw [charsOf_append, excess_append, ha, hb]
        rfl
      · rw [ha]
        exact hcb
    · intro w hw
      refine ⟨(typeLike_word (n := 0) (.inl hw)).1, fun ht => ?_, trivial⟩
      rw [endsSupertypes_word hw] at ht
      cases ht
    · rintro a ⟨ha, hca⟩
      refine ⟨?_, covers_mark.2 (covers_append.2 ⟨hca, covers_mark.2 trivial⟩)⟩
      rw [charsOf_mark, charsOf_append, excess_cons, excess_append, ha]
      rfl
    · rintro a b ⟨ha, hca⟩
      have hm := hca.mono (m := 0) (by decide)
      cases b with
      | exact => exact ⟨ha, hm⟩
      | upper | lower =>
        refine ⟨?_, covers_mark.2 ⟨?_, hm⟩⟩
        · exact ((typeLike_mark (n := 0) (by decide)).1.trans
            (typeLike_word (n := 0) (.inr (by decide))).1).trans ha
        · decide
    · rintro a b ⟨ha, hca⟩ ⟨hb, hcb⟩
      refine ⟨?_, covers_append.2 ⟨hca, covers_mark.2 ?_⟩⟩
      · rw [charsOf_append, charsOf_mark, excess_append, excess_cons, ha, hb]
        rfl
      · rw [ha]
        exact hcb
  exact type.tokens_closed hc

/-- So does a list of types. -/
theorem covers_types (types : List TypeExpr) :
    excess (charsOf (separated (types.map TypeExpr.tokens))) = 0 ∧
      Covers 1 (separated (types.map TypeExpr.tokens)) := by
  cases types with
  | nil => exact ⟨rfl, trivial⟩
  | cons type types =>
    have hmore : excess (charsOf ((types.map TypeExpr.tokens).flatMap (.mark ',' :: ·))) = 0 ∧
        Covers 1 ((types.map TypeExpr.tokens).flatMap (.mark ',' :: ·)) := by
      induction types with
      | nil => exact ⟨rfl, trivial⟩
      | cons u types ih =>
        obtain ⟨hu, hcu⟩ := u.covers
        rw [List.map_cons, List.flatMap_cons, List.cons_append]
        refine ⟨?_, covers_mark.2 (covers_append.2 ⟨hcu, ?_⟩)⟩
        · rw [charsOf_cons, charsOf_append, excess_append, excess_append, hu, ih.1]
          rfl
        · rw [hu]
          exact ih.2
    obtain ⟨ht, hct⟩ := type.covers
    rw [List.map_cons, separated]
    refine ⟨?_, covers_append.2 ⟨hct, ?_⟩⟩
    · rw [charsOf_append, excess_append, ht, hmore.1]
      rfl
    · rw [ht]
      exact hmore.2

/-! ## Upper bounds -/

/-- The word of an upper bound is no name and no primitive type. -/
theorem not_extends_of_word {w : String} (h : isIdentifier w = true ∨ isPrimitive w = true) :
    w ≠ "extends" := by
  rintro rfl
  exact absurd (endsSupertypes_word h) (by decide)

/-- The name of a type has no upper bound in it. -/
theorem TypeName.not_mem_extends (n : TypeName) : .word "extends" ∉ n.tokens := by
  cases n with
  | dotted n =>
    intro hm
    rcases List.mem_cons.1 hm with hm | hm
    · exact not_extends_of_word (.inl n.first.valid) (Token.word.inj hm).symm
    · obtain ⟨i, -, hm⟩ := List.mem_flatMap.1 hm
      have hw : Token.word "extends" = .word i.text := by simpa using hm
      exact not_extends_of_word (.inl i.valid) (Token.word.inj hw).symm
  | primitive p =>
    intro hm
    have hp := p.valid
    rw [Bool.and_eq_true] at hp
    exact not_extends_of_word (.inr hp.1) (Token.word.inj (List.mem_singleton.1 hm)).symm

/-- Array brackets have no upper bound in them. -/
theorem not_mem_dimTokens (n : Nat) : .word "extends" ∉ dimTokens n := by
  induction n with
  | zero => nofun
  | succ n ih => simpa [dimTokens] using ih

/-- Exactly the upper bound is written with the word of a clause. -/
theorem mem_bound_tokens {b : Bound} : .word "extends" ∈ b.tokens ↔ b = .upper := by
  cases b <;> decide

mutual

/-- The word `extends` stands in a type for its upper bounds. -/
theorem TypeExpr.mem_tokens : ∀ t : TypeExpr,
    .word "extends" ∈ t.tokens ↔ ∃ m ∈ t.mentions, m.1 = .upper
  | .mk name args dims => by
    rw [TypeExpr.tokens, List.mem_append, List.mem_append, mem_argumentTokens args,
      TypeExpr.mentions]
    simp only [name.not_mem_extends, not_mem_dimTokens, false_or, or_false]

/-- An argument has the word of a clause exactly if an upper bound is mentioned in it. -/
theorem TypeArgument.mem_tokens : ∀ a : TypeArgument,
    .word "extends" ∈ a.tokens ↔ ∃ m ∈ a.mentions, m.1 = .upper
  | .wildcard => by simp [TypeArgument.tokens, TypeArgument.mentions]
  | .type bound t => by
    rw [TypeArgument.tokens, List.mem_append, mem_bound_tokens, t.mem_tokens,
      TypeArgument.mentions]
    simp only [List.mem_cons, exists_eq_or_imp]

/-- So has a list of arguments with its brackets. -/
theorem mem_argumentTokens : ∀ args : List TypeArgument,
    .word "extends" ∈ argumentTokens args ↔ ∃ m ∈ argumentMentions args, m.1 = .upper
  | [] => by simp [argumentTokens, argumentMentions]
  | a :: as => by
    rw [argumentTokens, List.mem_cons, List.mem_append, a.mem_tokens, mem_moreArguments as,
      argumentMentions]
    simp only [reduceCtorEq, false_or, List.mem_append, or_and_right, exists_or]

/-- So have the arguments behind the first one. -/
theorem mem_moreArguments : ∀ args : List TypeArgument,
    .word "extends" ∈ moreArguments args ↔ ∃ m ∈ argumentMentions args, m.1 = .upper
  | [] => by simp [moreArguments, argumentMentions]
  | a :: as => by
    rw [moreArguments, List.mem_cons, List.mem_append, a.mem_tokens, mem_moreArguments as,
      argumentMentions]
    simp only [reduceCtorEq, false_or, List.mem_append, or_and_right, exists_or]

end

/-! ## One list after another -/

/-- The supertypes of a clause are the parts up to the word that ends it. -/
theorem supertypes_starts (h : startsSupertypes t = true) :
    supertypes (t :: ts) =
      ((topLevelParts (ts.takeWhile (!endsSupertypes ·))).map joinTokens).filter (· ≠ "") ++
        supertypes (ts.dropWhile (!endsSupertypes ·)) := by
  rw [supertypes, if_pos h]

/-- A token that starts no clause is passed over. -/
theorem supertypes_skips (h : startsSupertypes t = false) :
    supertypes (t :: ts) = supertypes ts := by
  rw [supertypes, if_neg (by simp [h])]

/-- A list that goes on where `p` ends is cut there or in front of it. -/
theorem cut_append {p : Token → Bool} (hr : ∀ t, rest.head? = some t → p t = false)
    (ts : List Token) :
    (ts ++ rest).takeWhile p = ts.takeWhile p ∧
      (ts ++ rest).dropWhile p = ts.dropWhile p ++ rest := by
  induction ts with
  | nil =>
    cases rest with
    | nil => exact ⟨rfl, rfl⟩
    | cons t rest => simp [hr t rfl]
  | cons t ts ih =>
    cases hp : p t with
    | false => simp [hp]
    | true => simp [hp, ih]

/-- What is read behind the start of a further list does not depend on what stands in front. -/
theorem supertypes_append (hr : ∀ t, rest.head? = some t → endsSupertypes t = true) :
    supertypes (ts ++ rest) = supertypes ts ++ supertypes rest := by
  fun_induction supertypes ts with
  | case1 => rfl
  | case2 t ts ht _ ih =>
    obtain ⟨htake, hdrop⟩ := cut_append (p := (!endsSupertypes ·)) (fun t h => by simp [hr t h]) ts
    rw [List.cons_append, supertypes_starts ht, htake, hdrop, ih, List.append_assoc]
  | case3 t ts ht ih =>
    rw [List.cons_append, supertypes_skips (Bool.eq_false_iff.2 ht), ih]

/-- What follows a clause starts with a word that ends it. -/
theorem Clause.head?_flatMap (cs : List Clause) :
    ∀ t, (cs.flatMap Clause.tokens).head? = some t → endsSupertypes t = true := by
  intro t ht
  cases cs with
  | nil => cases ht
  | cons c cs =>
    obtain rfl : .word c.kind.word = t := Option.some.inj ht
    cases c.kind <;> decide

/-- The clauses of a header are read one by one. -/
theorem supertypes_clauses (cs : List Clause) :
    supertypes (cs.flatMap Clause.tokens) = cs.flatMap fun c => supertypes c.tokens := by
  induction cs with
  | nil => rw [List.flatMap_nil, supertypes, List.flatMap_nil]
  | cons c cs ih =>
    rw [List.flatMap_cons, supertypes_append (Clause.head?_flatMap cs), ih, List.flatMap_cons]

/-! ## Clauses without upper bounds -/

/-- A token of a list with commas is a comma or stands in a part. -/
theorem mem_separated {parts : List (List Token)} (ht : t ∈ separated parts) :
    t = .mark ',' ∨ ∃ ts ∈ parts, t ∈ ts := by
  cases parts with
  | nil => cases ht
  | cons ts parts =>
    rcases List.mem_append.1 ht with ht | ht
    · exact .inr ⟨ts, List.mem_cons_self, ht⟩
    · obtain ⟨us, hu, ht⟩ := List.mem_flatMap.1 ht
      rcases List.mem_cons.1 ht with rfl | ht
      · exact .inl rfl
      · exact .inr ⟨us, List.mem_cons_of_mem _ hu, ht⟩

/-- The tokens of the parts stand in the list with commas. -/
theorem mem_separated_of_mem {parts : List (List Token)} (hp : ts ∈ parts) (ht : t ∈ ts) :
    t ∈ separated parts := by
  cases parts with
  | nil => cases hp
  | cons us parts =>
    rcases List.mem_cons.1 hp with rfl | hp
    · exact List.mem_append_left _ ht
    · exact List.mem_append_right _ (List.mem_flatMap.2 ⟨ts, hp, List.mem_cons_of_mem _ ht⟩)

/-- The list of types of a clause has the word `extends` in it exactly for an upper bound. -/
theorem mem_extends_types :
    .word "extends" ∈ separated (types.map TypeExpr.tokens) ↔ ∃ t ∈ types, ¬t.NoUpper := by
  have hn : ∀ type : TypeExpr, .word "extends" ∈ type.tokens ↔ ¬type.NoUpper := by
    intro type
    rw [type.mem_tokens, TypeExpr.NoUpper]
    simp
  refine ⟨fun h => ?_, ?_⟩
  · rcases mem_separated h with h | ⟨ts, hts, h⟩
    · cases h
    · obtain ⟨type, ht, rfl⟩ := List.mem_map.1 hts
      exact ⟨type, ht, (hn type).1 h⟩
  · rintro ⟨type, ht, h⟩
    exact mem_separated_of_mem (List.mem_map_of_mem ht) ((hn type).2 h)

/-- The text of a type is not empty. -/
theorem TypeExpr.raw_ne (type : TypeExpr) : type.raw ≠ "" := by
  intro hr
  obtain ⟨c, hc, -⟩ := type.name.getLast?
  obtain ⟨args, dims, he, -⟩ := type.toList_raw
  rw [hr] at he
  have hn : type.name.text.toList = [] := (List.append_eq_nil_iff.1 he.symm).1
  rw [hn] at hc
  cases hc

/-- Without the word of a clause there are no supertypes. -/
theorem supertypes_eq_nil (h : ∀ t ∈ ts, (!endsSupertypes t) = true) : supertypes ts = [] := by
  induction ts with
  | nil => rw [supertypes]
  | cons t ts ih =>
    obtain ⟨ht, hts⟩ := List.forall_mem_cons.1 h
    have hs : startsSupertypes t = false := by
      cases hs : startsSupertypes t with
      | false => rfl
      | true => rw [endsSupertypes, hs] at ht; cases ht
    rw [supertypes_skips hs, ih hts]

/-- A clause that nothing ends has all parts behind its word. -/
theorem supertypes_whole (ht : startsSupertypes t = true)
    (h : ∀ t ∈ ts, (!endsSupertypes t) = true) :
    supertypes (t :: ts) = ((topLevelParts ts).map joinTokens).filter (· ≠ "") := by
  have hw : ts.takeWhile (!endsSupertypes ·) = ts ∧ ts.dropWhile (!endsSupertypes ·) = [] := by
    rw [← List.append_nil ts, List.takeWhile_append_of_pos h, List.dropWhile_append_of_pos h]
    exact ⟨rfl, rfl⟩
  rw [supertypes_starts ht, hw.1, hw.2, supertypes, List.append_nil]

/-- A clause without upper bounds is read as it is written. -/
theorem supertypes_clause {c : Clause} (h : ∀ t ∈ c.types, t.NoUpper) :
    supertypes c.tokens = c.supertypes := by
  obtain ⟨kind, types⟩ := c
  have hends : ∀ t ∈ separated (types.map TypeExpr.tokens), (!endsSupertypes t) = true := by
    intro t ht
    cases he : endsSupertypes t with
    | false => rfl
    | true =>
      rw [(covers_types types).2.eq_extends ht he, mem_extends_types] at ht
      obtain ⟨u, hu, hn⟩ := ht
      exact absurd (h u hu) hn
  have hread : startsSupertypes (.word kind.word) = true →
      supertypes (.word kind.word :: separated (types.map TypeExpr.tokens)) =
        types.map TypeExpr.raw := by
    intro hs
    rw [supertypes_whole hs hends, topLevelParts_types, List.map_map]
    refine List.filter_eq_self.2 fun s hs => ?_
    obtain ⟨type, -, rfl⟩ := List.mem_map.1 hs
    exact decide_eq_true type.raw_ne
  cases kind with
  | extending => exact hread rfl
  | implementing => exact hread rfl
  | permitting =>
    rw [Clause.tokens, supertypes_skips rfl, supertypes_eq_nil hends]
    rfl

/-! ## Clauses with upper bounds -/

/-- The excess of the first text counts with that of the others. -/
theorem totalExcess_cons (s : String) (ss : List String) :
    totalExcess (s :: ss) = excess s.toList + totalExcess ss := rfl

/-- The excess of two lists of texts is that of both. -/
theorem totalExcess_append (ss ss' : List String) :
    totalExcess (ss ++ ss') = totalExcess ss + totalExcess ss' := by
  induction ss with
  | nil => exact (Int.zero_add _).symm
  | cons s ss ih =>
    rw [List.cons_append, totalExcess_cons, totalExcess_cons, ih, Int.add_assoc]

/-- Where the brackets do not even out, there is a text in which they do not. -/
theorem exists_of_totalExcess {ss : List String} (h : totalExcess ss ≠ 0) :
    ∃ s ∈ ss, excess s.toList ≠ 0 := by
  induction ss with
  | nil => exact absurd rfl h
  | cons s ss ih =>
    by_cases hs : excess s.toList = 0
    · have hne : totalExcess ss ≠ 0 := by
        intro hz
        refine h ?_
        rw [totalExcess_cons, hs, hz, Int.zero_add]
      obtain ⟨u, hu, he⟩ := ih hne
      exact ⟨u, List.mem_cons_of_mem _ hu, he⟩
    · exact ⟨s, List.mem_cons_self, hs⟩

/-- Empty texts have no brackets. -/
theorem totalExcess_filter (ss : List String) :
    totalExcess (ss.filter (· ≠ "")) = totalExcess ss := by
  induction ss with
  | nil => rfl
  | cons s ss ih =>
    by_cases hs : s = ""
    · rw [List.filter_cons_of_neg (by simp [hs]), ih, totalExcess_cons, hs]
      exact (Int.zero_add _).symm
    · rw [List.filter_cons_of_pos (by simp [hs]), totalExcess_cons, totalExcess_cons, ih]

/-- The parts between commas open and close what the list does. -/
theorem totalExcess_commaParts (d : Int) (ts : List Token) :
    totalExcess ((commaParts d ts).map joinTokens) = excess (charsOf ts) := by
  have hc : ∀ p ps, totalExcess ((p :: ps).map joinTokens) =
      excess (charsOf p) + totalExcess (ps.map joinTokens) := by
    intro p ps
    rw [List.map_cons, totalExcess_cons, toList_joinTokens]
  fun_induction commaParts d ts with
  | case1 => rfl
  | case2 d t ts h ih =>
    obtain ⟨rfl, -⟩ := h
    rw [hc, ih, charsOf_cons, excess_append]
    rfl
  | case3 d t ts h _ hp ih =>
    rw [hp] at ih
    rw [hc, charsOf_cons, charsOf_cons, excess_append, excess_append, ← ih]
    exact congrArg (· + _) (Int.add_zero _)
  | case4 d t ts h _ p ps hp ih =>
    rw [hp, hc] at ih
    rw [hc, charsOf_cons, charsOf_cons, excess_append, excess_append, ← ih]
    omega

/-- Cutting at commas keeps all angle brackets. -/
theorem totalExcess_topLevelParts (ts : List Token) :
    totalExcess ((topLevelParts ts).map joinTokens) = excess (charsOf ts) := by
  rw [← totalExcess_commaParts 0 ts, topLevelParts]
  split
  · next h =>
    obtain ⟨parts, hp⟩ := List.getLast?_eq_some_iff.1 h
    rw [hp, List.dropLast_concat, List.map_append, totalExcess_append]
    exact (Int.add_zero _).symm
  · rfl

/-- What a list is read as opens and closes what it does from the first start on. -/
theorem totalExcess_supertypes (h : ∀ t ∈ ts, endsSupertypes t = true → t = .word "extends") :
    totalExcess (supertypes ts) = excess (charsOf (ts.dropWhile (!endsSupertypes ·))) := by
  fun_induction supertypes ts with
  | case1 => rfl
  | case2 t ts ht _ ih =>
    obtain ⟨-, hts⟩ := List.forall_mem_cons.1 h
    have he : endsSupertypes t = true := by rw [endsSupertypes, ht]; rfl
    obtain rfl : t = .word "extends" := h t List.mem_cons_self he
    have hd : ∀ ts : List Token, (ts.dropWhile (!endsSupertypes ·)).dropWhile (!endsSupertypes ·) =
        ts.dropWhile (!endsSupertypes ·) := by
      intro ts
      cases hd : ts.dropWhile (!endsSupertypes ·) with
      | nil => rfl
      | cons u us =>
        have hu := List.head?_dropWhile_not (!endsSupertypes ·) ts
        rw [hd] at hu
        rw [List.dropWhile_cons_of_neg (by simpa using hu)]
    have hcut := congrArg (fun ts => excess (charsOf ts))
      (List.takeWhile_append_dropWhile (p := (!endsSupertypes ·)) (l := ts))
    rw [totalExcess_append, totalExcess_filter, totalExcess_topLevelParts,
      ih fun t ht => hts t ((List.dropWhile_sublist _).subset ht), hd,
      List.dropWhile_cons_of_neg (by simp [he])]
    rw [charsOf_append, excess_append] at hcut
    rw [hcut, charsOf_cons, excess_append]
    exact (Int.zero_add _).symm
  | case3 t ts ht ih =>
    obtain ⟨hhead, hts⟩ := List.forall_mem_cons.1 h
    have he : endsSupertypes t = false := by
      cases he : endsSupertypes t with
      | false => rfl
      | true => rw [hhead he] at ht; exact absurd rfl ht
    rw [ih hts, List.dropWhile_cons_of_pos (by simp [he])]

/-- In front of the first upper bound more angle brackets are opened than closed. -/
theorem Covers.excess_takeWhile (hc : Covers n ts) (hm : .word "extends" ∈ ts) :
    n ≤ excess (charsOf (ts.takeWhile (!endsSupertypes ·))) := by
  cases hd : ts.dropWhile (!endsSupertypes ·) with
  | nil => exact absurd (List.dropWhile_eq_nil_iff.1 hd _ hm) (by decide)
  | cons u us =>
    have hu := List.head?_dropWhile_not (!endsSupertypes ·) ts
    rw [hd] at hu
    rw [← List.takeWhile_append_dropWhile (p := (!endsSupertypes ·)) (l := ts), hd] at hc
    exact (hc.ends (by simpa using hu)).2

/-- A clause with an upper bound is read as a text that opens and closes different numbers of angle
brackets. -/
theorem exists_excess_of_clause {c : Clause} (h : ¬∀ t ∈ c.types, t.NoUpper) :
    ∃ s ∈ supertypes c.tokens, excess s.toList ≠ 0 := by
  obtain ⟨kind, types⟩ := c
  obtain ⟨hz, hc⟩ := covers_types types
  have hm : .word "extends" ∈ separated (types.map TypeExpr.tokens) := by
    rw [mem_extends_types]
    simpa using h
  have hfront := hc.excess_takeWhile hm
  -- A list of supertypes starts in front of the first upper bound, or right there.
  have hstart : startsSupertypes (.word kind.word) = true →
      ∃ s ∈ supertypes (.word kind.word :: separated (types.map TypeExpr.tokens)),
        excess s.toList ≠ 0 := by
    intro hs
    have hne : totalExcess (((topLevelParts ((separated (types.map TypeExpr.tokens)).takeWhile
        (!endsSupertypes ·))).map joinTokens).filter (· ≠ "")) ≠ 0 := by
      rw [totalExcess_filter, totalExcess_topLevelParts]
      omega
    obtain ⟨s, hs', he⟩ := exists_of_totalExcess hne
    rw [supertypes_starts hs]
    exact ⟨s, List.mem_append_left _ hs', he⟩
  cases kind with
  | extending => exact hstart rfl
  | implementing => exact hstart rfl
  | permitting =>
    have hcut := congrArg (fun ts => excess (charsOf ts)) (List.takeWhile_append_dropWhile
      (p := (!endsSupertypes ·)) (l := separated (types.map TypeExpr.tokens)))
    rw [charsOf_append, excess_append, hz] at hcut
    rw [Clause.tokens, supertypes_skips rfl]
    refine exists_of_totalExcess ?_
    rw [totalExcess_supertypes fun t ht he => hc.eq_extends ht he]
    omega

/-- The supertypes of a header are read as they are written exactly if no type in its clauses has an
argument with an upper bound. -/
theorem readSupertypes_eq_iff (h : TypeHead) :
    readSupertypes h = h.supertypes ↔ ∀ c ∈ h.clauses, ∀ t ∈ c.types, t.NoUpper := by
  rw [readSupertypes, supertypes_clauses, TypeHead.supertypes]
  refine ⟨fun he c hc => Classical.byContradiction fun hn => ?_, fun hn => ?_⟩
  · obtain ⟨s, hs, hx⟩ := exists_excess_of_clause hn
    have hm : s ∈ h.clauses.flatMap Clause.supertypes := by
      rw [← he]
      exact List.mem_flatMap.2 ⟨c, hc, hs⟩
    obtain ⟨d, -, hm⟩ := List.mem_flatMap.1 hm
    rw [Clause.supertypes] at hm
    split at hm
    · cases hm
    · obtain ⟨type, -, rfl⟩ := List.mem_map.1 hm
      rw [TypeExpr.raw, toList_joinTokens, type.covers.1] at hx
      exact hx rfl
  · rw [List.flatMap_def, List.flatMap_def]
    exact congrArg _ (List.map_congr_left fun c hc => supertypes_clause (hn c hc))

end

end TestImpact.Java
