import TestImpact.Ordered.NameSet

/-!
# Sorted maps from names

A `NameMap α` lists its entries by strictly increasing name. Main statements: what a look-up finds
after an insertion (`find?_insert`) and in a map of listed entries (`find?_ofList`), and that a
look-up finds exactly the listed entries (`find?_eq_some`).
-/

namespace TestImpact

/-- A map from strings, listed by strictly increasing name. -/
structure NameMap (α : Type) where
  /-- The entries in the order of their names. -/
  toList : List (String × α)
  sorted : toList.Pairwise (·.1 < ·.1) := by decide
deriving Repr

namespace NameMap
variable {α β : Type}

/-- Puts an entry at its place, over an entry of the same name. -/
def place (k : String) (v : α) : List (String × α) → List (String × α)
  | [] => [(k, v)]
  | e :: es =>
    if k < e.1 then (k, v) :: e :: es
    else if k = e.1 then (k, v) :: es
    else e :: place k v es

/-- An entry is the one that is put in place, or it was there. -/
theorem fst_of_mem_place {k : String} {v : α} {p : String × α} {es : List (String × α)}
    (h : p ∈ place k v es) : p = (k, v) ∨ p ∈ es := by
  induction es with
  | nil => simpa [place] using h
  | cons e es ih =>
    rw [place] at h
    split at h
    · simpa using h
    · split at h
      · rcases List.mem_cons.1 h with h | h
        · exact .inl h
        · exact .inr (List.mem_cons_of_mem _ h)
      · rcases List.mem_cons.1 h with h | h
        · exact .inr (h ▸ List.mem_cons_self)
        · exact (ih h).imp_right (List.mem_cons_of_mem _)

/-- The names stay in order. -/
theorem pairwise_place {k : String} {v : α} {es : List (String × α)}
    (h : es.Pairwise (·.1 < ·.1)) : (place k v es).Pairwise (·.1 < ·.1) := by
  induction es with
  | nil => simp [place]
  | cons e es ih =>
    obtain ⟨he, hes⟩ := List.pairwise_cons.1 h
    rw [place]
    split
    · next hk =>
      refine List.pairwise_cons.2 ⟨fun p hp => ?_, h⟩
      rcases List.mem_cons.1 hp with rfl | hp
      · exact hk
      · exact String.lt_trans hk (he p hp)
    · next hk =>
      split
      · next heq =>
        exact List.pairwise_cons.2 ⟨fun p hp => heq ▸ he p hp, hes⟩
      · next hne =>
        refine List.pairwise_cons.2 ⟨fun p hp => ?_, ih hes⟩
        rcases fst_of_mem_place hp with rfl | hp
        · exact Std.lt_of_le_of_ne (String.not_lt.1 hk) (Ne.symm hne)
        · exact he p hp

/-- The map without entries. -/
def empty : NameMap α := ⟨[], .nil⟩

/-- The map with `k` leading to `v`, whatever it led to before. -/
def insert (k : String) (v : α) (m : NameMap α) : NameMap α :=
  ⟨place k v m.toList, pairwise_place m.sorted⟩

/-- What `k` leads to. -/
def find? (m : NameMap α) (k : String) : Option α := (m.toList.find? (·.1 = k)).map (·.2)

/-- The map has an entry for `k`. -/
def contains (m : NameMap α) (k : String) : Bool := (m.find? k).isSome

/-- The names of the entries in order. -/
def names (m : NameMap α) : List String := m.toList.map (·.1)

/-- The values in the order of their names. -/
def values (m : NameMap α) : List α := m.toList.map (·.2)

/-- The number of entries. -/
def size (m : NameMap α) : Nat := m.toList.length

/-- The map of the listed entries, of which the last one counts where a name comes again. -/
def ofList (es : List (String × α)) : NameMap α := es.foldl (fun m e => m.insert e.1 e.2) empty

@[simp] theorem find?_empty {k : String} : (empty : NameMap α).find? k = none := rfl

/-- Under its own name the new value is found, and under any other name what was there. -/
theorem find?_place {k j : String} {v : α} {es : List (String × α)}
    (h : es.Pairwise (·.1 < ·.1)) :
    ((place k v es).find? (·.1 = j)).map (·.2) =
      if k = j then some v else (es.find? (·.1 = j)).map (·.2) := by
  induction es with
  | nil => by_cases hk : k = j <;> simp [place, hk]
  | cons e es ih =>
    obtain ⟨he, hes⟩ := List.pairwise_cons.1 h
    rw [place]
    split
    · by_cases hk : k = j <;> simp [hk]
    · split
      · next heq =>
        by_cases hk : k = j
        · simp [hk]
        · simp [hk, show ¬e.1 = j from heq ▸ hk]
      · next hne =>
        by_cases hej : e.1 = j
        · simp [hej, show ¬k = j from fun hk => hne (hk.trans hej.symm)]
        · simpa [hej] using ih hes

/-- An insertion changes what its own name leads to and nothing else. -/
@[simp] theorem find?_insert {k j : String} {v : α} {m : NameMap α} :
    (m.insert k v).find? j = if k = j then some v else m.find? j := find?_place m.sorted

/-- Insertions one after another change what a name leads to if one of them is at that name, and
then the last such one counts. -/
theorem find?_foldl_insert {es : List (String × α)} {m : NameMap α} {k : String} {v : α} :
    (es.foldl (fun m e => m.insert e.1 e.2) m).find? k = some v ↔
      (∃ before after, es = before ++ (k, v) :: after ∧ ∀ e ∈ after, e.1 ≠ k) ∨
        (∀ e ∈ es, e.1 ≠ k) ∧ m.find? k = some v := by
  induction es generalizing m with
  | nil => simp
  | cons e es ih =>
    rw [List.foldl_cons, ih, find?_insert]
    refine ⟨?_, ?_⟩
    · rintro (⟨before, after, rfl, hn⟩ | ⟨hn, hf⟩)
      · exact .inl ⟨e :: before, after, rfl, hn⟩
      · split at hf
        · next hk =>
          obtain rfl : e = (k, v) := by cases e; cases hf; cases hk; rfl
          exact .inl ⟨[], es, rfl, hn⟩
        · next hk => exact .inr ⟨List.forall_mem_cons.2 ⟨hk, hn⟩, hf⟩
    · rintro (⟨before, after, he, hn⟩ | ⟨hn, hf⟩)
      · cases before with
        | nil => cases he; exact .inr ⟨hn, if_pos rfl⟩
        | cons _ before => cases he; exact .inl ⟨before, after, rfl, hn⟩
      · obtain ⟨hk, hn⟩ := List.forall_mem_cons.1 hn
        exact .inr ⟨hn, by rw [if_neg hk, hf]⟩

/-- In the map of listed entries a name leads to the value of its last entry. -/
theorem find?_ofList {es : List (String × α)} {k : String} {v : α} :
    (ofList es).find? k = some v ↔
      ∃ before after, es = before ++ (k, v) :: after ∧ ∀ e ∈ after, e.1 ≠ k := by
  simp [ofList, find?_foldl_insert]

/-- A look-up finds exactly the listed entries. -/
theorem find?_eq_some {m : NameMap α} {k : String} {v : α} :
    m.find? k = some v ↔ (k, v) ∈ m.toList := by
  obtain ⟨es, hs⟩ := m
  simp only [find?]
  induction es with
  | nil => simp
  | cons e es ih =>
    obtain ⟨he, hes⟩ := List.pairwise_cons.1 hs
    by_cases hk : e.1 = k
    · have hn : (k, v) ∉ es := fun hm => String.lt_irrefl e.1 (Eq.subst hk.symm (he (k, v) hm))
      subst hk
      simp only [decide_true, List.find?_cons_of_pos, Option.map_some, Option.some.injEq,
        List.mem_cons, hn, or_false]
      exact ⟨fun h => h ▸ rfl, fun h => congrArg Prod.snd h.symm⟩
    · have hne : ¬(k, v) = e := fun h => hk (h ▸ rfl)
      simpa [hk, hne] using ih hes

/-- A name leads somewhere just if it is listed. -/
theorem contains_iff {m : NameMap α} {k : String} : m.contains k = true ↔ k ∈ m.names := by
  rw [contains, Option.isSome_iff_exists, names, List.mem_map]
  exact ⟨fun ⟨v, h⟩ => ⟨_, find?_eq_some.1 h, rfl⟩,
    fun ⟨e, he, hk⟩ => ⟨e.2, find?_eq_some.2 (hk ▸ he)⟩⟩

/-- The map has one more entry with a further name. -/
theorem size_insert {m : NameMap α} {k : String} {v : α} (h : m.contains k = false) :
    (m.insert k v).size = m.size + 1 := by
  have hplace : ∀ es : List (String × α), k ∉ es.map (·.1) →
      (place k v es).length = es.length + 1 := by
    intro es hk
    induction es with
    | nil => rfl
    | cons e es ih =>
      rw [List.map_cons, List.mem_cons, not_or] at hk
      rw [place]
      split
      · rfl
      · rw [if_neg hk.1, List.length_cons, List.length_cons, ih hk.2]
  refine hplace m.toList fun hk => ?_
  rw [contains_iff.2 hk] at h
  cases h

/-- The values of a map are what its names lead to. -/
theorem mem_values {m : NameMap α} {v : α} : v ∈ m.values ↔ ∃ k, m.find? k = some v := by
  rw [values, List.mem_map]
  exact ⟨fun ⟨e, he, hv⟩ => ⟨e.1, find?_eq_some.2 (hv ▸ he)⟩,
    fun ⟨k, h⟩ => ⟨_, find?_eq_some.1 h, rfl⟩⟩

end NameMap

end TestImpact
