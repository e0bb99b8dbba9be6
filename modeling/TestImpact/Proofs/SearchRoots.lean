import TestImpact.SearchRoots

/-!
# Which folders are searched

The search roots are built by a loop over the changed modules that leaves out what is there already.
As a set they are the project's folder and the folders that the mapped modules lead to
(`mem_roots`), so a larger change is searched for in more folders (`roots_mono`). As lists, the
project's folder comes first and no folder comes twice (`roots_foldl`), and the refusals stand in
the order of the modules (`refused_resolve`).
-/

namespace TestImpact.SearchRoots

section
variable {t : FileTree} {project root p : Path} {l : Layout} {mapping : NameMap String}
  {changed larger : NameSet} {s : SearchRoots} {name : String}

/-- The mapping of a module leads to the folder `p`. -/
def LeadsTo (t : FileTree) (mapping : NameMap String) (root : Path) (name : String) (p : Path) :
    Prop :=
  ∃ target, mappingOf? mapping name = some target ∧ destination t root target = .folder p

/-- What is refused of a module's mapping. -/
def refusal? (t : FileTree) (mapping : NameMap String) (root : Path) (name : String) :
    Option RefusedMapping :=
  match mappingOf? mapping name with
  | none => none
  | some target => if destination t root target = .outside then some ⟨name, target⟩ else none

/-- A refusal names the module, its mapping and a target that is outside. -/
theorem refusal?_eq_some {r : RefusedMapping} :
    refusal? t mapping root name = some r ↔
      r.source = name ∧ mappingOf? mapping name = some r.target ∧
        destination t root r.target = .outside := by
  obtain ⟨source, target⟩ := r
  rw [refusal?]
  cases hm : mappingOf? mapping name with
  | none => simp
  | some found =>
    by_cases hd : destination t root found = .outside
    · simp only [hd, if_true, Option.some.injEq, RefusedMapping.mk.injEq]
      exact ⟨fun h => ⟨h.1.symm, h.2, h.2 ▸ hd⟩, fun h => ⟨h.1.symm, h.2.1⟩⟩
    · simp only [hd, if_false, reduceCtorEq, Option.some.injEq, false_iff]
      rintro ⟨-, rfl, h⟩
      exact hd h

/-! ## One module -/

/-- A module changes nothing, adds a folder that is not there yet, or has its mapping refused. -/
theorem add_cases :
    (add t mapping root s name = s ∧ refusal? t mapping root name = none ∧
        ∀ p, LeadsTo t mapping root name p → p ∈ s.roots) ∨
      (∃ p, add t mapping root s name = { s with roots := s.roots ++ [p] } ∧
        refusal? t mapping root name = none ∧ p ∉ s.roots ∧
        ∀ q, LeadsTo t mapping root name q ↔ q = p) ∨
      ∃ r, add t mapping root s name = { s with refused := s.refused ++ [r] } ∧
        refusal? t mapping root name = some r ∧ ∀ p, ¬LeadsTo t mapping root name p := by
  simp only [add, refusal?, LeadsTo]
  cases hm : mappingOf? mapping name with
  | none =>
    refine .inl ⟨rfl, rfl, fun p hp => ?_⟩
    obtain ⟨_, h, -⟩ := hp
    cases h
  | some target =>
    simp only [Option.some.injEq, exists_eq_left']
    cases hd : destination t root target with
    | nowhere =>
      refine .inl ⟨rfl, rfl, fun p hp => ?_⟩
      cases hp
    | outside =>
      refine .inr (.inr ⟨_, rfl, rfl, fun p hp => ?_⟩)
      cases hp
    | folder p =>
      by_cases hp : p ∈ s.roots
      · refine .inl ⟨if_pos hp, rfl, fun q hq => ?_⟩
        cases hq
        exact hp
      · refine .inr (.inl ⟨p, if_neg hp, rfl, hp, fun q => ?_⟩)
        rw [Destination.folder.injEq, eq_comm]

/-- A module adds the folder that its mapping leads to. -/
theorem mem_roots_add :
    p ∈ (add t mapping root s name).roots ↔ p ∈ s.roots ∨ LeadsTo t mapping root name p := by
  rcases add_cases with ⟨he, -, h⟩ | ⟨q, he, -, -, h⟩ | ⟨r, he, -, h⟩
  · rw [he, or_iff_left_of_imp (h p)]
  · rw [he, h, List.mem_append, List.mem_singleton]
  · rw [he, or_iff_left (h p)]

/-- What was there stays in front, and no folder is added twice. -/
theorem prefix_roots_add (hn : s.roots.Nodup) :
    s.roots <+: (add t mapping root s name).roots ∧ (add t mapping root s name).roots.Nodup := by
  rcases add_cases with ⟨he, -⟩ | ⟨p, he, -, hp, -⟩ | ⟨r, he, -⟩
  · rw [he]
    exact ⟨List.prefix_refl _, hn⟩
  · rw [he]
    refine ⟨List.prefix_append _ _, List.nodup_append.2 ⟨hn, List.pairwise_singleton _ p, ?_⟩⟩
    rintro q hq _ hm rfl
    exact hp (List.mem_singleton.1 hm ▸ hq)
  · rw [he]
    exact ⟨List.prefix_refl _, hn⟩

/-- A module adds its refusal behind the others, if there is one. -/
theorem refused_add :
    (add t mapping root s name).refused =
      s.refused ++ (refusal? t mapping root name).toList := by
  rcases add_cases with ⟨he, hr, -⟩ | ⟨p, he, hr, -⟩ | ⟨r, he, hr, -⟩
  · rw [he, hr, Option.toList_none, List.append_nil]
  · rw [he, hr, Option.toList_none, List.append_nil]
  · rw [he, hr, Option.toList_some]

/-! ## All modules -/

/-- The modules together add the folders that their mappings lead to. -/
theorem mem_roots_foldl {names : List String} :
    p ∈ (names.foldl (add t mapping root) s).roots ↔
      p ∈ s.roots ∨ ∃ name ∈ names, LeadsTo t mapping root name p := by
  induction names generalizing s with
  | nil => simp
  | cons name names ih => rw [List.foldl_cons, ih, mem_roots_add]; simp [or_assoc]

/-- The modules of a change are those around its paths. -/
theorem mem_changedModules :
    name ∈ changedModules l changed ↔ name ≠ "" ∧ ∃ path ∈ changed, l.moduleOf path = name := by
  simp only [changedModules, NameSet.mem_ofList, List.mem_filter, List.mem_map, NameSet.mem_toList,
    decide_eq_true_eq]
  exact and_comm

/-- The search roots are the project's folder and the folders of the mapped modules. -/
theorem mem_roots :
    p ∈ (resolve t project l mapping changed).roots ↔
      p = projectRoot t project ∨
        ∃ name ∈ changedModules l changed, LeadsTo t mapping (projectRoot t project) name p := by
  simp only [resolve, mem_roots_foldl, List.mem_singleton, NameSet.mem_toList]

/-- The same holds of the modules together. -/
theorem roots_foldl {names : List String} (hn : s.roots.Nodup) :
    s.roots <+: (names.foldl (add t mapping root) s).roots ∧
      (names.foldl (add t mapping root) s).roots.Nodup := by
  induction names generalizing s with
  | nil => exact ⟨List.prefix_refl _, hn⟩
  | cons name names ih =>
    obtain ⟨hstep, hnext⟩ := prefix_roots_add hn
    obtain ⟨hrest, hnodup⟩ := ih hnext
    exact ⟨hstep.trans hrest, hnodup⟩

/-- The modules' refusals are listed in the order of the modules. -/
theorem refused_foldl {names : List String} :
    (names.foldl (add t mapping root) s).refused =
      s.refused ++ names.filterMap (refusal? t mapping root) := by
  induction names generalizing s with
  | nil => rw [List.foldl_nil, List.filterMap_nil, List.append_nil]
  | cons name names ih =>
    rw [List.foldl_cons, ih, refused_add, List.append_assoc, List.filterMap_cons]
    cases refusal? t mapping root name <;> rfl

/-- The refusals are those of the changed modules, in their order. -/
theorem refused_resolve :
    (resolve t project l mapping changed).refused =
      (changedModules l changed).toList.filterMap (refusal? t mapping (projectRoot t project)) :=
  refused_foldl

/-- More changed files search no fewer folders. -/
theorem roots_mono (hs : changed ⊆ larger) :
    ∀ p ∈ (resolve t project l mapping changed).roots,
      p ∈ (resolve t project l mapping larger).roots := by
  intro p hp
  rcases mem_roots.1 hp with rfl | ⟨name, hname, hl⟩
  · exact mem_roots.2 (.inl rfl)
  · obtain ⟨hne, path, hpath, rfl⟩ := mem_changedModules.1 hname
    exact mem_roots.2 (.inr ⟨_, mem_changedModules.2 ⟨hne, path, hs hpath, rfl⟩, hl⟩)

end

end TestImpact.SearchRoots
