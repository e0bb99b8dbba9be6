import TestImpact.Proofs.Java.TypeText

/-!
# Angle brackets in the texts of types

What the text of a type looks like from outside, which tells it from the texts that are read when
declarations are cut in wrong places. Main statement: a type closes the angle brackets that it
opens, closes none before, and has no parenthesis and no comma outside of them
(`TypeExpr.typeLike`).
-/

namespace TestImpact.Java

/-- How many angle brackets a text opens more than it closes. -/
def excess (cs : List Char) : Int := cs.count '<' - cs.count '>'

/-- Behind `n` open angle brackets the text has no closing parenthesis, and only between angle
brackets it has commas and closes one. -/
def TypeLike : Int → List Char → Prop
  | _, [] => True
  | n, c :: cs => c ≠ ')' ∧ (c = '>' ∨ c = ',' → 1 ≤ n) ∧ TypeLike (n + excess [c]) cs

section
variable {c : Char} {cs ds : List Char} {ts us : List Token} {n : Int}

@[simp] theorem excess_append : excess (cs ++ ds) = excess cs + excess ds := by
  simp only [excess, List.count_append]
  omega

/-- The text of a mark is its character. -/
theorem charsOf_mark : charsOf (.mark c :: ts) = c :: charsOf ts := by
  rw [charsOf_cons]
  exact congrArg (· ++ charsOf ts) (String.toList_singleton c)

/-- The first character counts with the others. -/
theorem excess_cons : excess (c :: cs) = excess [c] + excess cs := by
  rw [← excess_append]
  rfl

/-- Any other character counts nothing. -/
theorem excess_eq_zero (ho : c ≠ '<') (hc : c ≠ '>') : excess [c] = 0 := by
  simp [excess, ho, hc]

/-! ## Texts that are like types -/

/-- A text is like a type if its second part is, with what the first one leaves open. -/
theorem typeLike_append : TypeLike n (cs ++ ds) ↔ TypeLike n cs ∧ TypeLike (n + excess cs) ds := by
  induction cs generalizing n with
  | nil => simp [TypeLike, excess]
  | cons c cs ih =>
    rw [List.cons_append, TypeLike, TypeLike, ih, @excess_cons c cs, Int.add_assoc, and_assoc,
      and_assoc]

/-- No closing parenthesis stands in a text that is like a type. -/
theorem TypeLike.not_mem (h : TypeLike n cs) : ')' ∉ cs := by
  induction cs generalizing n with
  | nil => nofun
  | cons c cs ih =>
    obtain ⟨hc, -, hcs⟩ := h
    exact fun hm => (List.mem_cons.1 hm).elim (fun he => hc he.symm) (ih hcs)

/-- A bracket is closed behind one that is open. -/
theorem TypeLike.excess_nonneg (h : TypeLike n cs) (hn : 0 ≤ n) : 0 ≤ n + excess cs := by
  induction cs generalizing n with
  | nil => simpa [excess] using hn
  | cons c cs ih =>
    obtain ⟨-, hc, hcs⟩ := h
    have hstep : 0 ≤ n + excess [c] := by
      by_cases hx : c = '>'
      · have h1 : excess [c] = -1 := by rw [hx]; rfl
        have := hc (.inl hx)
        omega
      by_cases ho : c = '<'
      · have h1 : excess [c] = 1 := by rw [ho]; rfl
        omega
      · rw [excess_eq_zero ho hx]
        omega
    have := ih hcs hstep
    rw [excess_cons]
    omega

/-- Characters that are no brackets and no commas change nothing. -/
theorem typeLike_skip (h : ∀ c ∈ cs, c ∉ ['<', '>', ',', ')']) :
    excess (cs ++ ds) = excess ds ∧ (TypeLike n (cs ++ ds) ↔ TypeLike n ds) := by
  induction cs generalizing n with
  | nil => exact ⟨rfl, .rfl⟩
  | cons c cs ih =>
    obtain ⟨hc, hcs⟩ := List.forall_mem_cons.1 h
    simp only [List.mem_cons, List.not_mem_nil, or_false, not_or] at hc
    obtain ⟨ho, hx, hm, hp⟩ := hc
    rw [List.cons_append, excess_cons, excess_eq_zero ho hx, (ih (n := n) hcs).1, TypeLike,
      excess_eq_zero ho hx, Int.add_zero, (ih hcs).2]
    exact ⟨Int.zero_add _, fun h => h.2.2, fun h => ⟨hp, fun hor => (hor.elim hx hm).elim, h⟩⟩

/-- A mark that is no bracket changes nothing. -/
theorem typeLike_mark (hc : c ∈ ['.', '[', ']', '?']) :
    excess (charsOf (.mark c :: ts)) = excess (charsOf ts) ∧
      (TypeLike n (charsOf (.mark c :: ts)) ↔ TypeLike n (charsOf ts)) := by
  have hp : ∀ c ∈ ['.', '[', ']', '?'], ∀ d ∈ [c], d ∉ ['<', '>', ',', ')'] := by simp
  rw [charsOf_mark]
  exact typeLike_skip (hp c hc)

/-- So does a word of a type. -/
theorem typeLike_word {w : String}
    (h : (isIdentifier w = true ∨ isPrimitive w = true) ∨ w ∈ ["extends", "super"]) :
    excess (charsOf (.word w :: ts)) = excess (charsOf ts) ∧
      (TypeLike n (charsOf (.word w :: ts)) ↔ TypeLike n (charsOf ts)) := by
  refine typeLike_skip fun c hc hm => ?_
  have hk : ∀ w ∈ primitives ++ ["extends", "super"], w.toList.all isWordPart = true := by decide
  have hp : isWordPart c = true := by
    rcases h with (h | h) | h
    · exact (Identifier.isWordPart (i := ⟨w, h⟩) hc).1
    · exact List.all_eq_true.1 (hk w (List.mem_append_left _ (List.contains_iff_mem.1 h))) c hc
    · exact List.all_eq_true.1 (hk w (List.mem_append_right _ h)) c hc
  have hb : ∀ c ∈ ['<', '>', ',', ')'], isWordPart c = false := by simp [isWordPart, isNamePart]
  rw [hb c hm] at hp
  cases hp

/-- The text of a type is like one: it closes the angle brackets that it opens. -/
theorem TypeExpr.typeLike (type : TypeExpr) :
    excess (charsOf type.tokens) = 0 ∧ ∀ n, 0 ≤ n → TypeLike n (charsOf type.tokens) := by
  have hc : TypeClosed
      (fun ts => excess (charsOf ts) = 0 ∧ ∀ n, 0 ≤ n → TypeLike n (charsOf ts))
      (fun ts => excess (charsOf ts) = 0 ∧ ∀ n, 1 ≤ n → TypeLike n (charsOf ts)) := by
    refine ⟨⟨rfl, fun _ _ => trivial⟩, ?_, ?_, ?_, ?_, ?_, ?_, ?_, ?_⟩
    · rintro a b ⟨ha, hla⟩ ⟨hb, hlb⟩
      rw [charsOf_append, excess_append, ha, hb]
      refine ⟨rfl, fun n hn => typeLike_append.2 ⟨hla n hn, ?_⟩⟩
      rw [ha]
      exact hlb _ (by omega)
    · exact fun hw => ⟨(typeLike_word (n := 0) (.inl hw)).1, fun _ _ =>
        (typeLike_word (.inl hw)).2.2 trivial⟩
    · exact ⟨rfl, fun _ _ => (typeLike_mark (by decide)).2.2 trivial⟩
    · exact ⟨rfl, fun _ _ =>
        (typeLike_mark (by decide)).2.2 ((typeLike_mark (by decide)).2.2 trivial)⟩
    · rintro a ⟨ha, hla⟩
      rw [charsOf_mark, charsOf_append, excess_cons, excess_append, ha]
      refine ⟨rfl, fun n hn => ⟨by decide, by simp, typeLike_append.2 ⟨hla _ ?_, ?_⟩⟩⟩
      · show 1 ≤ n + 1
        omega
      · rw [ha]
        refine ⟨by decide, fun _ => ?_, trivial⟩
        show 1 ≤ n + 1 + 0
        omega
    · rintro a b ⟨ha, hla⟩
      cases b with
      | exact => exact ⟨ha, fun n hn => hla n (by omega)⟩
      | upper | lower =>
        refine ⟨?_, fun n hn => (typeLike_mark (by decide)).2.2 ((typeLike_word (.inr ?_)).2.2
          (hla n (by omega)))⟩
        · exact ((typeLike_mark (n := 0) (by decide)).1.trans
            (typeLike_word (n := 0) (.inr (by decide))).1).trans ha
        · decide
    · exact ⟨rfl, fun _ _ => (typeLike_mark (by decide)).2.2 trivial⟩
    · rintro a b ⟨ha, hla⟩ ⟨hb, hlb⟩
      rw [charsOf_append, charsOf_mark, excess_append, excess_cons, ha, hb]
      refine ⟨rfl, fun n hn => typeLike_append.2 ⟨hla n hn, ?_⟩⟩
      rw [ha]
      refine ⟨by decide, fun _ => ?_, hlb _ ?_⟩
      · omega
      · show 1 ≤ n + 0 + 0
        omega
  exact type.tokens_closed hc

end

end TestImpact.Java
