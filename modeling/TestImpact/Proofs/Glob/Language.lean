import TestImpact.Glob.Part

/-!
# The language of path patterns

What the expressions of a pattern accept, one lemma for each way to build them. Main statements: a
sequence accepts what its halves accept one after the other (`ByteExpr.accepts_sequence_append`),
and so do the parts of a pattern (`accepts_partsExpr_append`).
-/

namespace TestImpact.Glob

namespace ByteExpr

section
variable {e f : ByteExpr} {es fs : List ByteExpr} {b : UInt8} {w : List UInt8}

/-- Only the empty text is accepted by the empty expression. -/
theorem accepts_empty_iff : Accepts .empty w ↔ w = [] := by
  refine ⟨fun h => ?_, ?_⟩
  · cases h
    rfl
  · rintro rfl
    exact .empty

/-- A sequence accepts what is made up of texts of its two parts. -/
theorem accepts_seq_iff : Accepts (.seq e f) w ↔ ∃ u v, w = u ++ v ∧ Accepts e u ∧ Accepts f v := by
  refine ⟨fun h => ?_, ?_⟩
  · cases h with
    | @seq _ _ u v he hf => exact ⟨u, v, rfl, he, hf⟩
  · rintro ⟨u, v, rfl, he, hf⟩
    exact .seq he hf

/-- A choice accepts what one of the two accepts. -/
theorem accepts_either_iff : Accepts (.either e f) w ↔ Accepts e w ∨ Accepts f w := by
  refine ⟨fun h => ?_, ?_⟩
  · cases h with
    | left h => exact .inl h
    | right h => exact .inr h
  · rintro (h | h)
    · exact .left h
    · exact .right h

/-- A byte accepts itself alone. -/
theorem accepts_exactly_iff : Accepts (.exactly b) w ↔ w = [b] := by
  have hb : ∀ c, ByteSet.contains ⟨false, [(b, b)]⟩ c = true ↔ c = b := by
    intro c
    simp only [ByteSet.contains, List.any_cons, List.any_nil, Bool.or_false, Bool.bne_false,
      Bool.and_eq_true, decide_eq_true_eq]
    exact ⟨fun h => UInt8.le_antisymm h.2 h.1, fun h => h ▸ ⟨UInt8.le_refl _, UInt8.le_refl _⟩⟩
  refine ⟨fun h => ?_, ?_⟩
  · cases h with
    | byte h => rw [(hb _).1 h]
  · rintro rfl
    exact .byte ((hb b).2 rfl)

/-- Every text is accepted as anything. -/
theorem accepts_anything (w : List UInt8) : Accepts .anything w := .run fun _ _ => rfl

/-- A longer sequence accepts what is made up of texts of its two parts. -/
theorem accepts_sequence_append :
    Accepts (.sequence (es ++ fs)) w ↔
      ∃ u v, w = u ++ v ∧ Accepts (.sequence es) u ∧ Accepts (.sequence fs) v := by
  induction es generalizing w with
  | nil =>
    refine ⟨fun h => ⟨[], w, rfl, .empty, h⟩, ?_⟩
    rintro ⟨u, v, rfl, hu, hv⟩
    rw [accepts_empty_iff.1 hu]
    exact hv
  | cons e es ih =>
    refine accepts_seq_iff.trans ⟨?_, ?_⟩
    · rintro ⟨u, v, rfl, he, hv⟩
      obtain ⟨x, y, rfl, hx, hy⟩ := ih.1 hv
      exact ⟨u ++ x, y, (List.append_assoc ..).symm, .seq he hx, hy⟩
    · rintro ⟨u, v, rfl, hu, hv⟩
      obtain ⟨x, y, rfl, he, hy⟩ := accepts_seq_iff.1 hu
      exact ⟨x, y ++ v, List.append_assoc .., he, ih.2 ⟨y, v, rfl, hy, hv⟩⟩

/-- A sequence of given bytes accepts these bytes. -/
theorem accepts_sequence_exactly {bs : List UInt8} :
    Accepts (.sequence (bs.map .exactly)) w ↔ w = bs := by
  induction bs generalizing w with
  | nil => exact accepts_empty_iff
  | cons b bs ih =>
    refine accepts_seq_iff.trans ⟨?_, ?_⟩
    · rintro ⟨u, v, rfl, hu, hv⟩
      rw [accepts_exactly_iff.1 hu, ih.1 hv]
      rfl
    · rintro rfl
      exact ⟨[b], bs, rfl, accepts_exactly_iff.2 rfl, ih.2 rfl⟩

/-- A byte or a run of bytes of a name holds no slash. -/
theorem slash_not_mem_of_accepts (h : Accepts nameByte w ∨ Accepts nameBytes w) : slash ∉ w := by
  have hs : ByteSet.contains ⟨true, [(slash, slash)]⟩ slash ≠ true := by decide
  rcases h with h | h
  · cases h with
    | byte h => exact fun hm => hs (List.mem_singleton.1 hm ▸ h)
  · cases h with
    | run h => exact fun hm => hs (h _ hm)

end

end ByteExpr

open ByteExpr

section
variable {parts more : List Part} {w : List UInt8}

/-- Folding a list of parts folds each of them. -/
theorem foldParts_eq_map {α β : Type} (a : Part.Algebra α β) (parts : List Part) :
    Part.foldParts a parts = parts.map (Part.fold a) := by
  induction parts with
  | nil => rfl
  | cons p parts ih => rw [Part.foldParts, ih, List.map_cons]

/-- Parts one after another accept what is made up of texts of both. -/
theorem accepts_partsExpr_append :
    Accepts (partsExpr (parts ++ more)) w ↔
      ∃ u v, w = u ++ v ∧ Accepts (partsExpr parts) u ∧ Accepts (partsExpr more) v := by
  simp only [partsExpr, foldParts_eq_map, List.map_append]
  exact accepts_sequence_append

/-- A symbol in front accepts the start of the text. -/
theorem accepts_partsExpr_symbol {s : Symbol} :
    Accepts (partsExpr (.symbol s :: parts)) w ↔
      ∃ u v, w = u ++ v ∧ Accepts s.expr u ∧ Accepts (partsExpr parts) v :=
  accepts_seq_iff

end

end TestImpact.Glob
