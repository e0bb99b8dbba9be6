import TestImpact.FileTree.Walk

/-!
# What a walk comes across

A walk visits a folder item by item, while names lead to one item of it. Main statements: an item at
the end of a list of names is met by the walk that lists all files (`mem_files`) and by the one that
looks for folders (`mem_matching`), if that finds nothing on the way and enters every folder there.
-/

namespace TestImpact

namespace Items

section
variable {f g : Items} {name : String} {names more front : List String} {bytes : List UInt8}
  {item : Item} {accepts : List String → Bool} {pruned : List String} {entry : List String × Items}

/-! ## Names that lead to an item -/

/-- One name leads to the item that the folder has under it. -/
theorem at?_singleton : f.at? [name] = f.find? name := by
  cases hf : f.find? name with
  | none => simp [at?, hf]
  | some item => simp [at?, hf]

/-- Several names lead through a folder. -/
theorem at?_cons (hn : more ≠ []) :
    f.at? (name :: more) = some item ↔
      ∃ inside, f.find? name = some (.folder inside) ∧ inside.at? more = some item := by
  cases more with
  | nil => exact absurd rfl hn
  | cons s more =>
    cases hf : f.find? name with
    | none => simp [at?, hf]
    | some found => cases found <;> simp [at?, hf]

/-- Names lead on from the folder in the middle. -/
theorem at?_append (hn : more ≠ []) :
    f.at? (names ++ more) = some item ↔
      ∃ inside, f.at? names = some (.folder inside) ∧ inside.at? more = some item := by
  induction names generalizing f with
  | nil => simp [at?]
  | cons name names ih =>
    rw [List.cons_append, at?_cons (List.append_ne_nil_of_right_ne_nil _ hn)]
    refine ⟨?_, ?_⟩
    · rintro ⟨g, hg, h⟩
      obtain ⟨inside, hi, hm⟩ := ih.1 h
      refine ⟨inside, ?_, hm⟩
      cases names with
      | nil =>
        cases hi
        rw [at?_singleton, hg]
      | cons s names => exact (at?_cons (List.cons_ne_nil _ _)).2 ⟨g, hg, hi⟩
    · rintro ⟨inside, hi, hm⟩
      cases names with
      | nil =>
        rw [at?_singleton] at hi
        exact ⟨inside, hi, hm⟩
      | cons s names =>
        obtain ⟨g, hg, h⟩ := (at?_cons (List.cons_ne_nil _ _)).1 hi
        exact ⟨g, hg, ih.2 ⟨inside, h, hm⟩⟩

/-- Names lead through proper names to well named items. -/
theorem WellNamed.of_at? (hf : f.WellNamed) (h : f.at? names = some item) :
    (∀ s ∈ names, IsName s) ∧ item.WellNamed := by
  induction names generalizing f with
  | nil =>
    cases h
    exact ⟨List.forall_mem_nil _, hf⟩
  | cons name names ih =>
    by_cases hm : names = []
    · subst hm
      obtain ⟨hn, hi⟩ := hf.of_find? (at?_singleton.symm.trans h)
      exact ⟨List.forall_mem_singleton.2 hn, hi⟩
    · obtain ⟨inside, hi, h⟩ := (at?_cons hm).1 h
      obtain ⟨hn, hinside⟩ := hf.of_find? hi
      obtain ⟨hnames, hfound⟩ := ih hinside h
      exact ⟨List.forall_mem_cons.2 ⟨hn, hnames⟩, hfound⟩

/-! ## Files -/

/-- A file that the folder holds is found under its own name. -/
theorem mem_files_of_find? (h : f.find? name = some (.file bytes)) :
    (front ++ [name], bytes) ∈ f.files front := by
  induction f with
  | empty => cases h
  | file n b rest ih =>
    rw [find?] at h
    rw [files, List.mem_cons]
    split at h
    · next hn =>
      cases h
      exact .inl (by rw [hn])
    · exact .inr (ih h)
  | link n target rest ih =>
    rw [find?] at h
    split at h
    · cases h
    · exact ih h
  | folder n inside rest _ ih =>
    rw [find?] at h
    split at h
    · cases h
    · exact List.mem_append_right _ (ih h)

/-- What is listed of a folder inside is listed of the folder. -/
theorem files_subset_of_find? (h : f.find? name = some (.folder g)) :
    g.files (front ++ [name]) ⊆ f.files front := by
  induction f with
  | empty => cases h
  | file n b rest ih =>
    rw [find?] at h
    split at h
    · cases h
    · exact List.subset_cons_of_subset _ (ih h)
  | link n target rest ih =>
    rw [find?] at h
    split at h
    · cases h
    · exact ih h
  | folder n inside rest _ ih =>
    rw [find?] at h
    rw [files]
    split at h
    · next hn =>
      cases h
      rw [hn]
      exact List.subset_append_left _ _
    · exact List.subset_append_of_subset_right _ (ih h)

/-- A file that names lead to is listed. -/
theorem mem_files (hn : names ≠ []) (h : f.at? names = some (.file bytes)) :
    (front ++ names, bytes) ∈ f.files front := by
  induction names generalizing f front with
  | nil => exact absurd rfl hn
  | cons name names ih =>
    by_cases hm : names = []
    · subst hm
      exact mem_files_of_find? (at?_singleton.symm.trans h)
    · obtain ⟨g, hg, h⟩ := (at?_cons hm).1 h
      have he : front ++ name :: names = front ++ [name] ++ names := by simp
      rw [he]
      exact files_subset_of_find? hg (ih hm h)

/-! ## Folders -/

/-- What is found at a folder inside, or in it, is found in the folder. -/
theorem matching_subset_of_find? (h : f.find? name = some (.folder g)) :
    (if pruned.contains name then []
      else if accepts (front ++ [name]) then [(front ++ [name], g)]
      else g.matching accepts pruned (front ++ [name])) ⊆ f.matching accepts pruned front := by
  induction f with
  | empty => cases h
  | file n b rest ih | link n target rest ih =>
    rw [find?] at h
    split at h
    · cases h
    · exact ih h
  | folder n inside rest _ ih =>
    rw [find?] at h
    rw [matching]
    split at h
    · next hn =>
      cases h
      rw [hn]
      exact List.subset_append_left _ _
    · exact List.subset_append_of_subset_right _ (ih h)

/-- A folder that names lead to is found if it is accepted and no folder in front of it is, and none
of the names is pruned. -/
theorem mem_matching (hn : names ≠ []) (h : f.at? names = some (.folder g))
    (hp : ∀ name ∈ names, name ∉ pruned) (ha : accepts (front ++ names) = true)
    (hf : ∀ start rest, names = start ++ rest → start ≠ [] → rest ≠ [] →
      accepts (front ++ start) = false) :
    (front ++ names, g) ∈ f.matching accepts pruned front := by
  induction names generalizing f front with
  | nil => exact absurd rfl hn
  | cons name names ih =>
    obtain ⟨hname, hp⟩ := List.forall_mem_cons.1 hp
    have hc : ¬pruned.contains name = true := by simpa using hname
    have he : front ++ name :: names = front ++ [name] ++ names := by simp
    by_cases hm : names = []
    · subst hm
      refine matching_subset_of_find? (at?_singleton.symm.trans h) ?_
      rw [if_neg hc, if_pos ha]
      exact List.mem_singleton_self _
    · obtain ⟨inside, hi, h⟩ := (at?_cons hm).1 h
      have hno : accepts (front ++ [name]) = false :=
        hf [name] names rfl (List.cons_ne_nil _ _) hm
      refine matching_subset_of_find? hi ?_
      rw [if_neg hc, hno, he]
      refine ih hm h hp (he ▸ ha) fun start rest hs _ hr => ?_
      rw [List.append_assoc]
      exact hf (name :: start) rest (by rw [hs]; rfl) (List.cons_ne_nil _ _) hr

/-- Where nothing is accepted, nothing is found. -/
theorem matching_eq_nil (ha : ∀ names, accepts names = false) :
    f.matching accepts pruned front = [] := by
  induction f generalizing front with
  | empty => rfl
  | file _ _ _ ih | link _ _ _ ih => exact ih
  | folder name inside rest ihi ih => rw [matching, ha, ihi, ih]; simp

end

end Items

/-- Sorting keeps the entries. -/
theorem mem_sortByNames {α : Type} {x : List String × α} {xs : List (List String × α)} :
    x ∈ sortByNames xs ↔ x ∈ xs :=
  List.mem_mergeSort

end TestImpact
