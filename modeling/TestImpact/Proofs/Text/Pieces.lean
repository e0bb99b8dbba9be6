import Mathlib.Data.List.Infix
import TestImpact.Text.Pieces

/-!
# Pieces between separators

The pieces of a text are the parts without the separator that stand between its ends and its
separators (`mem_splitOn_iff`); the last one is what follows the last separator
(`exists_splitOn_concat`, `eq_afterLast_iff`). All other characters are kept (`exists_mem_splitOn`).
Dropping an end finds what stands in front of it (`dropEnd?_eq_some`).
-/

namespace TestImpact

section
variable {sep : Char} {cs part tail : List Char}

/-- A text that starts with the separator has nothing in front of it. -/
theorem splitOn_cons_self : (sep :: cs).splitOn sep = [] :: cs.splitOn sep := by
  rw [List.splitOn_cons_eq_if_modifyHead, if_pos (beq_self_eq_true sep)]

/-- Any other first character belongs to the first piece. -/
theorem exists_splitOn_cons {c : Char} (h : c ≠ sep) (cs : List Char) :
    ∃ p ps, cs.splitOn sep = p :: ps ∧ (c :: cs).splitOn sep = (c :: p) :: ps := by
  rw [List.splitOn_cons_eq_if_modifyHead, if_neg (by simpa using h)]
  cases hp : cs.splitOn sep with
  | nil => exact absurd hp (List.splitOn_ne_nil sep cs)
  | cons p ps => exact ⟨p, ps, rfl, rfl⟩

/-- No piece has the separator. -/
theorem not_mem_of_mem_splitOn (sep : Char) (cs : List Char) : ∀ p ∈ cs.splitOn sep, sep ∉ p := by
  induction cs with
  | nil => exact List.forall_mem_singleton.2 List.not_mem_nil
  | cons c cs ih =>
    by_cases h : c = sep
    · subst h
      rw [splitOn_cons_self]
      exact List.forall_mem_cons.2 ⟨List.not_mem_nil, ih⟩
    · obtain ⟨p, ps, hp, hc⟩ := exists_splitOn_cons h cs
      rw [hp] at ih
      obtain ⟨ihp, ihps⟩ := List.forall_mem_cons.1 ih
      rw [hc]
      refine List.forall_mem_cons.2 ⟨fun hm => ?_, ihps⟩
      exact (List.mem_cons.1 hm).elim (Ne.symm h) ihp

/-! ## The last piece -/

/-- What is added behind a text without the separator belongs to its last piece. -/
theorem afterLast_append (h : sep ∉ tail) :
    afterLast sep (cs ++ tail) = afterLast sep cs ++ tail := by
  rw [afterLast, List.reverse_append, List.takeWhile_append_of_pos (forall_mem_reverse_ne h)]
  simp [afterLast]

/-- A text without the separator is its own last piece. -/
theorem afterLast_of_not_mem (h : sep ∉ cs) : afterLast sep cs = cs := by
  have ha : afterLast sep ([] ++ cs) = afterLast sep [] ++ cs := afterLast_append h
  exact ha

/-- The last separator of a text cuts off the last piece. -/
theorem splitOn_beforeLast (h : sep ∈ cs) :
    cs.splitOn sep = (beforeLast sep cs).splitOn sep ++ [afterLast sep cs] := by
  have hp : (beforeLast sep cs ++ sep :: afterLast sep cs).splitOn sep = _ :=
    List.splitOn_append_cons_self _ _
  rwa [beforeLast_append_afterLast h, List.splitOn_eq_singleton (not_mem_afterLast sep cs)] at hp

/-- The last piece of a text is what follows its last separator. -/
theorem exists_splitOn_concat (sep : Char) (cs : List Char) :
    ∃ front, cs.splitOn sep = front ++ [afterLast sep cs] := by
  by_cases hm : sep ∈ cs
  · exact ⟨_, splitOn_beforeLast hm⟩
  · exact ⟨[], by rw [List.splitOn_eq_singleton hm, afterLast_of_not_mem hm, List.nil_append]⟩

/-- The part without the separator that ends a text and starts it or follows a separator. -/
theorem eq_afterLast_iff : part = afterLast sep cs ↔
    sep ∉ part ∧ ∃ before, cs = before ++ part ∧ (before = [] ∨ before.getLast? = some sep) := by
  constructor
  · rintro rfl
    refine ⟨not_mem_afterLast sep cs, ?_⟩
    by_cases hm : sep ∈ cs
    · exact ⟨beforeLast sep cs ++ [sep], by simp [beforeLast_append_afterLast hm], .inr (by simp)⟩
    · exact ⟨[], by rw [afterLast_of_not_mem hm, List.nil_append], .inl rfl⟩
  · rintro ⟨hn, before, rfl, rfl | hb⟩
    · exact (afterLast_of_not_mem hn).symm
    · obtain ⟨start, rfl⟩ := List.getLast?_eq_some_iff.1 hb
      rw [List.append_assoc]
      exact (afterLast_append_cons hn).symm

/-! ## Every piece -/

/-- A piece starts the text or follows a separator, and it ends the text or stands in front of
one. -/
theorem exists_of_mem_splitOn {cs : List Char} (h : part ∈ cs.splitOn sep) :
    ∃ before after, cs = before ++ (part ++ after) ∧
      (before = [] ∨ before.getLast? = some sep) ∧ (after = [] ∨ after.head? = some sep) := by
  by_cases hm : sep ∈ cs
  · have hsplit := beforeLast_append_afterLast hm
    rw [splitOn_beforeLast hm, List.mem_append, List.mem_singleton] at h
    rcases h with h | rfl
    · -- the piece is one of the part in front of the last separator
      have hlt : (beforeLast sep cs).length < cs.length := by
        have hlen := congrArg List.length hsplit
        rw [List.length_append, List.length_cons] at hlen
        omega
      obtain ⟨before, after, he, hb, ha⟩ := exists_of_mem_splitOn h
      refine ⟨before, after ++ sep :: afterLast sep cs, ?_, hb, .inr ?_⟩
      · rw [← List.append_assoc part, ← List.append_assoc before, ← he, hsplit]
      · rcases ha with rfl | ha
        · rfl
        · rw [List.head?_append, ha, Option.some_or]
    · exact ⟨beforeLast sep cs ++ [sep], [], by simp [hsplit], .inr (by simp), .inl rfl⟩
  · rw [List.splitOn_eq_singleton hm, List.mem_singleton] at h
    exact ⟨[], [], by simp [h], .inl rfl, .inl rfl⟩
termination_by cs.length

/-- The pieces of a text are exactly the parts without the separator between two of its ends and
separators. -/
theorem mem_splitOn_iff : part ∈ cs.splitOn sep ↔
    sep ∉ part ∧ ∃ before after, cs = before ++ (part ++ after) ∧
      (before = [] ∨ before.getLast? = some sep) ∧ (after = [] ∨ after.head? = some sep) := by
  constructor
  · exact fun h => ⟨not_mem_of_mem_splitOn sep cs part h, exists_of_mem_splitOn h⟩
  · rintro ⟨hn, before, after, rfl, hb, ha⟩
    have hpart : part ∈ (part ++ after).splitOn sep := by
      rcases ha with rfl | ha
      · rw [List.append_nil, List.splitOn_eq_singleton hn]
        exact List.mem_singleton_self _
      · obtain ⟨r, rfl⟩ := List.head?_eq_some_iff.1 ha
        rw [List.splitOn_append_cons_self, List.splitOn_eq_singleton hn]
        exact List.mem_cons_self
    rcases hb with rfl | hb
    · exact hpart
    · obtain ⟨start, rfl⟩ := List.getLast?_eq_some_iff.1 hb
      rw [List.append_assoc, List.singleton_append, List.splitOn_append_cons_self]
      exact List.mem_append_right _ hpart

/-- The characters of a piece are characters of the text. -/
theorem subset_of_mem_splitOn (h : part ∈ cs.splitOn sep) : part ⊆ cs := by
  obtain ⟨before, after, rfl, -, -⟩ := exists_of_mem_splitOn h
  exact fun c hc => List.mem_append_right _ (List.mem_append_left _ hc)

/-- Every character but the separator belongs to a piece. -/
theorem exists_mem_splitOn {c : Char} (hc : c ∈ cs) (hne : c ≠ sep) :
    ∃ p ∈ cs.splitOn sep, c ∈ p := by
  induction cs with
  | nil => cases hc
  | cons d cs ih =>
    by_cases hd : d = sep
    · subst hd
      obtain ⟨p, hp, hcp⟩ := ih ((List.mem_cons.1 hc).resolve_left hne)
      rw [splitOn_cons_self]
      exact ⟨p, List.mem_cons_of_mem _ hp, hcp⟩
    · obtain ⟨p, ps, hps, hq⟩ := exists_splitOn_cons hd cs
      rw [hps] at ih
      rw [hq]
      rcases List.mem_cons.1 hc with rfl | hc
      · exact ⟨_, List.mem_cons_self, List.mem_cons_self⟩
      · obtain ⟨q, hmem, hcq⟩ := ih hc
        rcases List.mem_cons.1 hmem with rfl | hmem
        · exact ⟨_, List.mem_cons_self, List.mem_cons_of_mem _ hcq⟩
        · exact ⟨q, List.mem_cons_of_mem _ hmem, hcq⟩

end

/-- Dropping an end finds what stands in front of it. -/
theorem dropEnd?_eq_some {tail s front : String} :
    dropEnd? tail s = some front ↔ s = front ++ tail := by
  simp only [dropEnd?, Option.map_eq_some_iff, List.isSuffixOf?_eq_some_iff_append_eq]
  rw [← String.toList_inj, String.toList_append]
  constructor
  · rintro ⟨cs, he, rfl⟩
    rw [String.toList_ofList, he]
  · exact fun he => ⟨front.toList, he.symm, String.ofList_toList⟩

end TestImpact
