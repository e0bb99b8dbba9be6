import TestImpact.Proofs.FoldedPath
import TestImpact.Proofs.SearchRoots

/-!
# Where mappings lead

A mapping is followed twice: by its text alone, where `..` takes a name away, and through the links
of the tree. Main statement: whatever links there are, the search of a project takes in the
project's folder and folders inside it, each once, and refuses the mappings that lead out of it, in
the order of their modules (`resolve_keptInside`). There is one exception: a `..` that is left at
the top by the text of a target refuses it, wherever it leads (`exists_refused_and_inside`).
-/

namespace TestImpact.SearchRoots

open FileTree (follow maxLinks pathOf)

/-- A module with a change is mapped to the target. -/
structure Mapped (l : Layout) (mapping : NameMap String) (changed : NameSet)
    (name target : String) : Prop where
  ne_empty : name ≠ ""
  changed : ∃ path ∈ changed, l.moduleOf path = name
  target_eq : mappingOf? mapping name = some target

/-- A target leads to the place `found`, links on the way followed. -/
def Reaches (t : FileTree) (base : List String) (target : String) (found : List String) : Prop :=
  t.placeOf (targetPath (pathOf base) target) .target = .ok found

/-- A target leads out of the root: by its text alone or, where there is something, through
links. -/
def LeadsOut (t : FileTree) (base : List String) (target : String) : Prop :=
  ¬base <+: targetPlace base target ∨ ∃ found, Reaches t base target found ∧ ¬base <+: found

/-- A `..` is left at the top by the text of a target, and this is not where the root is. -/
def KeepsUp (base : List String) (target : String) : Prop := LeavesUp base target ∧ base ≠ []

instance {base : List String} {target : String} : Decidable (KeepsUp base target) :=
  inferInstanceAs (Decidable (_ ∧ _))

/-- A target leads to the folder `p` inside the root. -/
structure LeadsInto (t : FileTree) (base : List String) (target : String) (p : Path) : Prop where
  by_text : base <+: targetPlace base target
  reaches : ∃ found, Reaches t base target found ∧ base <+: found ∧ p = pathOf found
  isFolder : t.isFolder p = true

/-- What a search of the project at the place `base` takes in, and what it refuses. -/
structure KeptInside (t : FileTree) (base : List String) (mapped : String → String → Prop)
    (s : SearchRoots) : Prop where
  /-- The project's folder comes first. -/
  first : s.roots.head? = some (pathOf base)
  /-- No folder comes twice. -/
  nodup : s.roots.Nodup
  /-- The other folders are those that mapped modules lead to. -/
  mem_roots : ∀ p, p ∈ s.roots ↔
    p = pathOf base ∨ ∃ name target, mapped name target ∧ LeadsInto t base target p ∧
      ¬KeepsUp base target
  /-- They are folders inside the project's, and there are no links on their paths. -/
  inside : ∀ p ∈ s.roots, p ≠ pathOf base →
    t.isFolder p = true ∧ t.canonical p = .ok p ∧ p.startsWith (pathOf base) = true
  /-- At most one mapping is refused for a module, and modules stand in their order. -/
  ordered : s.refused.Pairwise fun a b => a.source < b.source
  /-- The mappings that lead out are refused, and those that keep a `..`. -/
  mem_refused : ∀ r, r ∈ s.refused ↔
    mapped r.source r.target ∧ (LeadsOut t base r.target ∨ KeepsUp base r.target)
  /-- A module whose mapping does neither has none refused, be there a folder or not. -/
  not_refused : ∀ name target, mapped name target → ¬LeadsOut t base target → ¬KeepsUp base target →
    ∀ r ∈ s.refused, r.source ≠ name

section
variable {t : FileTree} {project p : Path} {l : Layout} {mapping : NameMap String}
  {changed : NameSet} {base found : List String} {name target : String}

/-! ## One target -/

/-- The path of a target starts with that of the root exactly if its text leads inside and keeps no
`..`. -/
theorem startsWith_targetPath (hb : ∀ s ∈ base, IsName s) :
    (targetPath (pathOf base) target).startsWith (pathOf base) = true ↔
      base <+: targetPlace base target ∧ ¬KeepsUp base target := by
  rw [startsWith_candidate hb, KeepsUp, not_and, Classical.not_not]

/-- A target whose text leads out, or keeps a `..`, is outside. -/
theorem destination_of_not_inside (hb : ∀ s ∈ base, IsName s)
    (h : ¬(base <+: targetPlace base target ∧ ¬KeepsUp base target)) :
    destination t (pathOf base) target = .outside :=
  if_neg (mt (startsWith_targetPath hb).1 h)

/-- A target whose text leads inside, to nothing, is nowhere. -/
theorem destination_of_error {why : FileError} (hb : ∀ s ∈ base, IsName s)
    (h : base <+: targetPlace base target ∧ ¬KeepsUp base target)
    (hp : t.placeOf (targetPath (pathOf base) target) .target = .error why) :
    destination t (pathOf base) target = .nowhere := by
  rw [destination, if_pos ((startsWith_targetPath hb).2 h), FileTree.canonical, hp]
  rfl

/-- A place lies inside the root exactly if its path starts with that of the root. -/
theorem startsWith_reached (hb : ∀ s ∈ base, IsName s)
    (hr : Reaches t base target found) :
    (pathOf found).startsWith (pathOf base) = true ↔ base <+: found :=
  FileTree.startsWith_pathOf (fun s hs => (hb s hs).toIsStep)
    fun s hs => (FileTree.isName_of_placeOf hr s hs).toIsStep

/-- A target whose text leads to a place inside is told by where the links lead. -/
theorem destination_of_reaches (hb : ∀ s ∈ base, IsName s)
    (h : base <+: targetPlace base target ∧ ¬KeepsUp base target)
    (hr : Reaches t base target found) :
    destination t (pathOf base) target =
      if base <+: found then
        if t.isFolder (pathOf found) then .folder (pathOf found) else .nowhere
      else .outside := by
  have hs := startsWith_reached hb hr
  rw [destination, if_pos ((startsWith_targetPath hb).2 h), FileTree.canonical_eq hr]
  by_cases hf : base <+: found
  · rw [if_pos hf]
    exact if_pos (hs.2 hf)
  · rw [if_neg hf]
    exact if_neg (mt hs.1 hf)

/-- A target is outside exactly if it leads out or keeps a `..`. -/
theorem destination_eq_outside (hb : ∀ s ∈ base, IsName s) :
    destination t (pathOf base) target = .outside ↔
      LeadsOut t base target ∨ KeepsUp base target := by
  by_cases h : base <+: targetPlace base target ∧ ¬KeepsUp base target
  · rw [LeadsOut, or_iff_left h.2, or_iff_right (Classical.not_not.2 h.1)]
    cases hp : t.placeOf (targetPath (pathOf base) target) .target with
    | error why =>
      rw [destination_of_error hb h hp]
      refine iff_of_false nofun ?_
      rintro ⟨found, hr, -⟩
      cases hp.symm.trans hr
    | ok found =>
      rw [destination_of_reaches hb h hp]
      refine ⟨fun hd => ⟨found, hp, fun hf => ?_⟩, ?_⟩
      · rw [if_pos hf] at hd
        split at hd <;> cases hd
      · rintro ⟨other, hr, hf⟩
        cases hp.symm.trans hr
        exact if_neg hf
  · refine iff_of_true (destination_of_not_inside hb h) ?_
    by_cases hin : base <+: targetPlace base target
    · exact .inr (Classical.byContradiction fun hk => h ⟨hin, hk⟩)
    · exact .inl (.inl hin)

/-- A target is a folder of the search exactly if it leads into one and keeps no `..`. -/
theorem destination_eq_folder (hb : ∀ s ∈ base, IsName s) :
    destination t (pathOf base) target = .folder p ↔
      LeadsInto t base target p ∧ ¬KeepsUp base target := by
  by_cases h : base <+: targetPlace base target ∧ ¬KeepsUp base target
  · rw [and_iff_left h.2]
    refine ⟨fun hd => ?_, ?_⟩
    · cases hp : t.placeOf (targetPath (pathOf base) target) .target with
      | error why =>
        rw [destination_of_error hb h hp] at hd
        cases hd
      | ok found =>
        rw [destination_of_reaches hb h hp] at hd
        split at hd
        · next hf =>
          split at hd
          · next hfolder =>
            cases hd
            exact ⟨h.1, ⟨found, hp, hf, rfl⟩, hfolder⟩
          · cases hd
        · cases hd
    · rintro ⟨-, ⟨found, hr, hf, rfl⟩, hfolder⟩
      rw [destination_of_reaches hb h hr, if_pos hf, if_pos hfolder]
  · rw [destination_of_not_inside hb h]
    exact iff_of_false nofun fun hi => h ⟨hi.1.by_text, hi.2⟩

/-- A target that leads inside by its text and through the links does not lead out. -/
theorem not_leadsOut (hin : base <+: targetPlace base target) (hr : Reaches t base target found)
    (hf : base <+: found) : ¬LeadsOut t base target := by
  rintro (h | ⟨other, ho, h⟩)
  · exact h hin
  · cases hr.symm.trans ho
    exact h hf

/-! ## All modules -/

/-- The root of the project is the place where its path leads to. -/
theorem projectRoot_eq (hr : t.placeOf project .target = .ok base) :
    projectRoot t project = pathOf base := by
  rw [projectRoot, FileTree.canonical_eq hr]

/-- The mapped modules are those with a change that have a mapping. -/
theorem mapped_iff : Mapped l mapping changed name target ↔
    name ∈ changedModules l changed ∧ mappingOf? mapping name = some target := by
  rw [mem_changedModules]
  exact ⟨fun h => ⟨⟨h.ne_empty, h.changed⟩, h.target_eq⟩, fun h => ⟨h.1.1, h.1.2, h.2⟩⟩

/-- A folder that a target leads into is its own canonical path, inside the root. -/
theorem LeadsInto.canonical (hb : ∀ s ∈ base, IsName s)
    (h : LeadsInto t base target p) :
    t.canonical p = .ok p ∧ p.startsWith (pathOf base) = true := by
  obtain ⟨found, hr, hf, rfl⟩ := h.reaches
  exact ⟨FileTree.canonical_pathOf hr h.isFolder, (startsWith_reached hb hr).2 hf⟩

/-- The search of a project that is there takes in its folder and folders inside it, and refuses the
mappings that lead out, whatever links there are. -/
theorem resolve_keptInside (hr : t.placeOf project .target = .ok base) :
    t.canonical project = .ok (pathOf base) ∧
      KeptInside t base (Mapped l mapping changed) (resolve t project l mapping changed) := by
  have hb : ∀ s ∈ base, IsName s := FileTree.isName_of_placeOf hr
  have hroot : projectRoot t project = pathOf base := projectRoot_eq hr
  have hmem : ∀ p, p ∈ (resolve t project l mapping changed).roots ↔
      p = pathOf base ∨ ∃ name target, Mapped l mapping changed name target ∧
        LeadsInto t base target p ∧ ¬KeepsUp base target := by
    intro p
    rw [mem_roots, hroot]
    simp only [LeadsTo, destination_eq_folder hb, mapped_iff, and_assoc, exists_and_left]
  have hrefused : (resolve t project l mapping changed).refused =
      (changedModules l changed).toList.filterMap (refusal? t mapping (pathOf base)) := by
    rw [refused_resolve, hroot]
  obtain ⟨⟨rest, hrest⟩, hnodup⟩ : [pathOf base] <+: (resolve t project l mapping changed).roots ∧
      (resolve t project l mapping changed).roots.Nodup := by
    have hone : (SearchRoots.mk [pathOf base] []).roots.Nodup := List.pairwise_singleton _ _
    rw [resolve, hroot]
    exact roots_foldl hone
  have hmemr : ∀ r, r ∈ (resolve t project l mapping changed).refused ↔
      Mapped l mapping changed r.source r.target ∧
        (LeadsOut t base r.target ∨ KeepsUp base r.target) := by
    intro r
    rw [hrefused, List.mem_filterMap, mapped_iff, ← destination_eq_outside hb, and_assoc]
    refine ⟨?_, fun h => ⟨r.source, h.1, refusal?_eq_some.2 ⟨rfl, h.2⟩⟩⟩
    rintro ⟨name, hname, hr⟩
    obtain ⟨rfl, h⟩ := refusal?_eq_some.1 hr
    exact ⟨hname, h⟩
  refine ⟨FileTree.canonical_eq hr, ?_, hnodup, hmem, ?_, ?_, hmemr, ?_⟩
  · rw [← hrest]
    rfl
  · intro p hp hne
    obtain ⟨name, target, -, hinto, -⟩ := ((hmem p).1 hp).resolve_left hne
    exact ⟨hinto.isFolder, hinto.canonical hb⟩
  · rw [hrefused]
    refine (changedModules l changed).sorted.filterMap _ ?_
    intro a b hab r hra r' hrb
    rw [(refusal?_eq_some.1 hra).1, (refusal?_eq_some.1 hrb).1]
    exact hab
  · rintro name target hm hout hk r hr rfl
    obtain ⟨hm', h⟩ := (hmemr r).1 hr
    obtain rfl : r.target = target := Option.some.inj (hm'.target_eq.symm.trans hm.target_eq)
    exact h.elim hout hk

end

/-! ## A small project -/

/-- A project with a link out of it. -/
def linkedProject : FileTree where
  disk := { items := .folder "p" (.link "out" "/q" .empty) (.folder "q" .empty .empty) }
  here := []

/-- The layout with one source folder. -/
def oneLayout : Layout := ⟨[["src"]], [], []⟩

/-- A change in one module. -/
def oneChange : NameSet where toList := ["m/src/A.java"]

/-- The mapping of this module. -/
def oneMapping (target : String) : NameMap String where
  toList := [("m", target)]
  sorted := List.pairwise_singleton _ _

/-- The module of the example is mapped to its target. -/
theorem mapped_oneMapping (target : String) :
    Mapped oneLayout (oneMapping target) oneChange "m" target where
  ne_empty := by decide
  changed := ⟨"m/src/A.java", List.mem_singleton_self _, by decide⟩
  target_eq := rfl

/-- The project of the example stands at its own path. -/
theorem placeOf_linkedProject : linkedProject.placeOf ⟨"/p"⟩ .target = .ok ["p"] := by
  have hp : pathOf ["p"] = ⟨"/p"⟩ := by decide
  rw [← hp]
  exact FileTree.placeOf_pathOf (by decide) rfl (FileTree.folder_ne_link _)

/-- A link of the example leads out of the project. -/
theorem reaches_out : Reaches linkedProject ["p"] "out" ["q"] := by
  have htext : targetPath (pathOf ["p"]) "out" = ⟨"/p/out"⟩ := by decide
  have hstart : linkedProject.placeOf ⟨"/p/out"⟩ .target =
      follow linkedProject.top maxLinks [] .target ["", "p", "out"] := rfl
  have hq : FileTree.steps "/q" = ["", "q"] := by decide
  rw [Reaches, htext, hstart, FileTree.follow_blank rfl]
  refine (FileTree.follow_name (by decide) rfl rfl (FileTree.folder_ne_link _)).trans ?_
  refine (FileTree.follow_link (by decide) (by decide) rfl rfl (by decide)).trans ?_
  rw [hq]
  refine (FileTree.follow_blank rfl).trans ?_
  exact FileTree.follow_names (by decide) rfl (FileTree.folder_ne_link _)

/-- The mapping through the link is refused, and the project's own folder is searched. -/
theorem resolve_keptInside_linkedProject :
    (⟨"m", "out"⟩ : RefusedMapping) ∈
        (resolve linkedProject ⟨"/p"⟩ oneLayout (oneMapping "out") oneChange).refused ∧
      (resolve linkedProject ⟨"/p"⟩ oneLayout (oneMapping "out") oneChange).roots.head? =
        some (pathOf ["p"]) := by
  have hout : LeadsOut linkedProject ["p"] "out" := .inr ⟨["q"], reaches_out, by decide⟩
  obtain ⟨-, h⟩ := resolve_keptInside placeOf_linkedProject
  exact ⟨(h.mem_refused _).2 ⟨mapped_oneMapping "out", .inl hout⟩, h.first⟩

/-- Going up and down again leads back to the project. -/
theorem reaches_up : Reaches linkedProject ["p"] "../../p" ["p"] := by
  have htext : targetPath (pathOf ["p"]) "../../p" = ⟨"/../p"⟩ := by decide
  have hstart : linkedProject.placeOf ⟨"/../p"⟩ .target =
      follow linkedProject.top maxLinks [] .target ["", "..", "p"] := rfl
  rw [Reaches, htext, hstart, FileTree.follow_blank rfl, FileTree.follow_up rfl]
  exact FileTree.follow_names (by decide) rfl (FileTree.folder_ne_link _)

/-- At the top, going up once more leads no further. -/
theorem reaches_upUp : Reaches linkedProject ["p"] "../../../p" ["p"] := by
  have htext : targetPath (pathOf ["p"]) "../../../p" = ⟨"/p"⟩ := by decide
  rw [Reaches, htext, placeOf_linkedProject]

/-- The target of the example is refused exactly if it is outside. -/
theorem refused_oneMapping (target : String) :
    (resolve linkedProject ⟨"/p"⟩ oneLayout (oneMapping target) oneChange).refused =
      if destination linkedProject (pathOf ["p"]) target = .outside then [⟨"m", target⟩]
      else [] := by
  have hm : (changedModules oneLayout oneChange).toList = ["m"] := by decide
  have hr : refusal? linkedProject (oneMapping target) (pathOf ["p"]) "m" =
      if destination linkedProject (pathOf ["p"]) target = .outside then some ⟨"m", target⟩
      else none := rfl
  rw [refused_resolve, hm, projectRoot_eq placeOf_linkedProject, List.filterMap_cons, hr]
  by_cases hd : destination linkedProject (pathOf ["p"]) target = .outside
  · rw [if_pos hd, if_pos hd]
    rfl
  · rw [if_neg hd, if_neg hd]
    rfl

/-- A target that leads to the project's own folder is refused if it goes up from the top once, and
not if it does so twice. -/
theorem exists_refused_and_inside :
    ¬LeadsOut linkedProject ["p"] "../../p" ∧
      (resolve linkedProject ⟨"/p"⟩ oneLayout (oneMapping "../../p") oneChange).refused =
        [⟨"m", "../../p"⟩] ∧
      ¬LeadsOut linkedProject ["p"] "../../../p" ∧
      (resolve linkedProject ⟨"/p"⟩ oneLayout (oneMapping "../../../p") oneChange).refused =
        [] := by
  have hb : ∀ s ∈ ["p"], IsName s := by decide
  have hup : ¬LeadsOut linkedProject ["p"] "../../p" :=
    not_leadsOut (by decide) reaches_up (List.prefix_refl _)
  have hupUp : ¬LeadsOut linkedProject ["p"] "../../../p" :=
    not_leadsOut (by decide) reaches_upUp (List.prefix_refl _)
  refine ⟨hup, ?_, hupUp, ?_⟩
  · rw [refused_oneMapping]
    exact if_pos ((destination_eq_outside hb).2 (.inr (by decide)))
  · rw [refused_oneMapping]
    refine if_neg fun hd => ?_
    rcases (destination_eq_outside hb).1 hd with h | h
    · exact hupUp h
    · exact absurd h (by decide)

end TestImpact.SearchRoots
