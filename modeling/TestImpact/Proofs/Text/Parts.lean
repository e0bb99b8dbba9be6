import Mathlib.Data.List.Infix
import TestImpact.Text.Blank
import TestImpact.Text.Pieces

/-!
# Parts across a seam

A part of two joined texts stands in one of them or lies across the seam. It cannot lie across where
its first character is not in front of the seam, or its last one not behind it
(`infix_of_head_not_mem`, `infix_of_last_not_mem`). What holds at the border of both lists holds at
that of the joined one (`forall_getLast?_append`, `forall_head?_append`). A text is what trimming
leaves, with blanks around it (`exists_trimBlanks`).
-/

namespace TestImpact

section
variable {c : Char} {p part cs front back : List Char}

/-- A part is found exactly if it stands in the text. -/
theorem hasPart_iff : hasPart part cs = true ↔ part <:+: cs := by
  induction cs with
  | nil => rw [hasPart, List.isEmpty_iff, List.infix_nil]
  | cons c cs ih =>
    rw [hasPart, Bool.or_eq_true, ih, List.isPrefixOf_iff_prefix, List.infix_cons_iff]

/-- A part whose first character is not in front of the seam stands behind it. -/
theorem infix_of_head_not_mem (h : c :: p <:+: front ++ back) (hc : c ∉ front) :
    c :: p <:+: back := by
  rcases List.infix_append_iff.1 h with hf | hb | ⟨l, r, he, hl, hr⟩
  · exact absurd (hf.subset List.mem_cons_self) hc
  · exact hb
  · cases l with
    | nil =>
      rw [he]
      exact hr.isInfix
    | cons d l =>
      obtain ⟨rfl, -⟩ := List.cons.inj he
      exact absurd (hl.subset List.mem_cons_self) hc

/-- A part whose last character is not behind the seam stands in front of it. -/
theorem infix_of_last_not_mem (h : p ++ [c] <:+: front ++ back) (hc : c ∉ back) :
    p ++ [c] <:+: front := by
  have hback := List.reverse_infix.2 h
  rw [List.reverse_append, List.reverse_append] at hback
  have hfront := infix_of_head_not_mem hback (by rwa [List.mem_reverse])
  rw [← List.reverse_infix, List.reverse_append]
  exact hfront

/-- What holds at the end of both lists holds at the end of the joined one. -/
theorem forall_getLast?_append {α : Type} {P : α → Prop} {xs ys : List α}
    (hx : ∀ a ∈ xs.getLast?, P a) (hy : ∀ a ∈ ys.getLast?, P a) :
    ∀ a ∈ (xs ++ ys).getLast?, P a := by
  rw [List.getLast?_append]
  cases hl : ys.getLast? with
  | none => exact hx
  | some c => rwa [hl] at hy

/-- What holds at the start of both lists holds at the start of the joined one. -/
theorem forall_head?_append {α : Type} {P : α → Prop} {xs ys : List α}
    (hx : ∀ a ∈ xs.head?, P a) (hy : ∀ a ∈ ys.head?, P a) : ∀ a ∈ (xs ++ ys).head?, P a := by
  rw [List.head?_append]
  cases hh : xs.head? with
  | none => exact hy
  | some c => rwa [hh] at hx

/-- What has been trimmed away are blanks. -/
theorem exists_trimBlanks (cs : List Char) :
    ∃ front back, cs = front ++ (trimBlanks cs ++ back) ∧ (∀ c ∈ front, isBlank c = true) ∧
      ∀ c ∈ back, isBlank c = true := by
  refine ⟨cs.takeWhile isBlank, ((cs.dropWhile isBlank).reverse.takeWhile isBlank).reverse, ?_,
    fun c hc => ?_, fun c hc => ?_⟩
  · rw [trimBlanks, ← List.reverse_append, List.takeWhile_append_dropWhile, List.reverse_reverse,
      List.takeWhile_append_dropWhile]
  · exact List.all_eq_true.1 List.all_takeWhile c hc
  · exact List.all_eq_true.1 List.all_takeWhile c (List.mem_reverse.1 hc)

end

end TestImpact
