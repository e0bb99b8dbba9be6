import TestImpact.Proofs.FileTree.Walk
import TestImpact.Proofs.Path

/-!
# Places and their paths

Main statements: the absolute path of an item that names lead to, leads to that item, unless the
path or one of its names is too long (`FileTree.placeOf_pathOf`); a path leads through names
(`FileTree.isName_of_placeOf`) to an item that is no link (`FileTree.exists_item_of_placeOf`); and
so the path without links that leads to a folder is its own (`FileTree.canonical_pathOf`).
-/

namespace TestImpact.FileTree

section
variable {t : FileTree} {top inside : Items} {links : Nat} {place names found : List String}
  {last : PathEnd} {p : Path} {s : String} {item : Item}

/-! ## The steps of a path -/

/-- The path of a place starts with a slash, and slashes stand between its names. -/
theorem toList_pathOf (place : List String) :
    (pathOf place).text.toList = '/' :: ("/".intercalate place).toList :=
  String.toList_append

/-- The path of a place is never empty. -/
theorem isEmpty_pathOf (place : List String) : (pathOf place).text.isEmpty = false := by
  rw [← Bool.not_eq_true, String.isEmpty_iff]
  intro he
  have ht := toList_pathOf place
  rw [he] at ht
  cases ht

/-- The path of a place starts at the top. -/
theorem isAbsolute_pathOf (place : List String) : isAbsolute (pathOf place).text = true := by
  rw [isAbsolute, startsWith, toList_pathOf]
  rfl

/-- The steps of a place's path are its names, behind an empty one. -/
theorem steps_pathOf (hn : ∀ s ∈ place, IsName s) :
    steps (pathOf place).text = "" :: (if place = [] then [""] else place) := by
  rw [steps, piecesOf, toList_pathOf, splitOn_cons_self]
  split
  · next h => rw [h]; rfl
  · next h => exact congrArg _ (piecesOf_intercalate h fun s hs => (hn s hs).toIsStep)

/-- The components of a place's path are the root and its names. -/
theorem components_pathOf (hn : ∀ s ∈ place, IsStep s) :
    (pathOf place).components = .root :: place.map stepOf :=
  (Path.components_of_slash (toList_pathOf place)).trans
    (congrArg _ (filterMap_splitOn_intercalate hn))

/-- One path is inside another if its place is. -/
theorem startsWith_pathOf (hn : ∀ s ∈ names, IsStep s) (hp : ∀ s ∈ place, IsStep s) :
    (pathOf place).startsWith (pathOf names) = true ↔ names <+: place := by
  rw [Path.startsWith, components_pathOf hn, components_pathOf hp, List.isPrefixOf_iff_prefix,
    List.cons_prefix_cons, List.prefix_map_iff_of_injective stepOf_injective]
  exact and_iff_right rfl

/-! ## Following names -/

/-- A folder is no link. -/
theorem folder_ne_link (f : Items) (target : String) : Item.folder f ≠ .link target := by
  intro h
  cases h

/-- A blank step stays in the folder at hand. -/
theorem follow_blank (hat : top.at? place = some (.folder inside)) :
    follow top links place last ("" :: names) = follow top links place last names := by
  rw [follow, hat]
  exact if_pos (.inl rfl)

/-- `..` leads to the folder around the one at hand. -/
theorem follow_up (hat : top.at? place = some (.folder inside)) :
    follow top links place last (".." :: names) = follow top links place.dropLast last names := by
  rw [follow, hat]
  exact (if_neg (by decide)).trans (if_pos rfl)

/-- A link leads to where its target does. -/
theorem follow_link {target : String} (hs : IsName s) (hlong : s.utf8ByteSize ≤ maxNameBytes)
    (hat : top.at? place = some (.folder inside)) (hf : inside.find? s = some (.link target))
    (hlast : last ≠ .itself) :
    follow top (links + 1) place last (s :: names) =
      follow top links (if isAbsolute target then [] else place) last (steps target ++ names) := by
  rw [follow, hat]
  simp only [hs.ne_empty, hs.ne_here, hs.ne_up, or_self, if_false, hf, hlast, and_false,
    Nat.not_lt.2 hlong]

/-- A name leads to its item, if that is no link. -/
theorem follow_name (hs : IsName s) (hat : top.at? place = some (.folder inside))
    (hf : inside.find? s = some item) (hl : ∀ target, item ≠ .link target) :
    follow top links place last (s :: names) =
      if maxNameBytes < s.utf8ByteSize then .error .nameTooLong
      else follow top links (place ++ [s]) last names := by
  rw [follow, hat]
  simp only [hs.ne_empty, hs.ne_here, hs.ne_up, or_self, if_false, hf]

/-- Names lead to their item if that is no link, unless one of them is too long. -/
theorem follow_names (hn : ∀ s ∈ names, IsName s) (hat : top.at? (place ++ names) = some item)
    (hl : ∀ target, item ≠ .link target) :
    follow top links place last names =
      if names.all (·.utf8ByteSize ≤ maxNameBytes) then .ok (place ++ names)
      else .error .nameTooLong := by
  induction names generalizing place with
  | nil => rw [follow, List.append_nil]; rfl
  | cons s names ih =>
    obtain ⟨hs, hnames⟩ := List.forall_mem_cons.1 hn
    obtain ⟨g, hg, hin⟩ := (Items.at?_append (List.cons_ne_nil _ _)).1 hat
    have hf : ∃ found, g.find? s = some found ∧ ∀ target, found ≠ .link target := by
      by_cases hm : names = []
      · subst hm
        exact ⟨item, Items.at?_singleton.symm.trans hin, hl⟩
      · obtain ⟨g', hg', -⟩ := (Items.at?_cons hm).1 hin
        exact ⟨.folder g', hg', folder_ne_link g'⟩
    obtain ⟨found, hfound, hno⟩ := hf
    have he : place ++ s :: names = place ++ [s] ++ names := by simp
    rw [follow_name hs hg hfound hno, ih hnames (he ▸ hat), he, List.all_cons]
    by_cases hlong : maxNameBytes < s.utf8ByteSize
    · rw [if_pos hlong, decide_eq_false (by omega), Bool.false_and, if_neg Bool.false_ne_true]
    · rw [if_neg hlong, decide_eq_true (by omega), Bool.true_and]

/-- The path of an item that is no link leads to that item, unless something is wrong with its
text. -/
theorem placeOf_pathOf (hn : ∀ s ∈ place, IsName s) (hat : t.top.at? place = some item)
    (hl : ∀ target, item ≠ .link target) :
    t.placeOf (pathOf place) last =
      if '\x00' ∈ (pathOf place).text.toList then .error .nulInName
      else if maxPathBytes < (pathOf place).text.utf8ByteSize then .error .nameTooLong
      else if place.all (·.utf8ByteSize ≤ maxNameBytes) then .ok place
      else .error .nameTooLong := by
  have hfollow : follow t.top maxLinks [] last ("" :: (if place = [] then [""] else place)) =
      if place.all (·.utf8ByteSize ≤ maxNameBytes) then .ok place else .error .nameTooLong := by
    rw [follow_blank rfl]
    split
    · next hp =>
      rw [hp, follow_blank rfl, follow]
      rfl
    · exact follow_names hn hat hl
  rw [placeOf, isEmpty_pathOf, startOf, if_pos (isAbsolute_pathOf place), steps_pathOf hn, hfollow]
  exact if_neg Bool.false_ne_true

/-- The path of a place leads back to the place, unless there is a link. -/
theorem eq_of_placeOf_pathOf (hn : ∀ s ∈ place, IsName s) (hat : t.top.at? place = some item)
    (hl : ∀ target, item ≠ .link target) (h : t.placeOf (pathOf place) last = .ok found) :
    found = place := by
  rw [placeOf_pathOf hn hat hl] at h
  split at h
  · cases h
  split at h
  · cases h
  split at h
  · cases h
    rfl
  · cases h

/-! ## Where a path leads -/

/-- The folder around an item. -/
theorem at?_dropLast (hat : top.at? place = some (.folder inside)) :
    ∃ g, top.at? place.dropLast = some (.folder g) := by
  rcases place.eq_nil_or_concat with rfl | ⟨front, s, rfl⟩
  · exact ⟨top, rfl⟩
  · rw [List.concat_eq_append] at hat ⊢
    obtain ⟨g, hg, -⟩ := (Items.at?_append (List.cons_ne_nil _ _)).1 hat
    rw [List.dropLast_concat]
    exact ⟨g, hg⟩

/-- Every text has a step. -/
theorem steps_ne_nil (text : String) : steps text ≠ [] := by
  rw [steps, piecesOf, ne_eq, List.map_eq_nil_iff]
  exact List.splitOn_ne_nil _ _

/-- Steps have no slashes in them. -/
theorem no_slash_steps (text : String) : ∀ s ∈ steps text, '/' ∉ s.toList := by
  intro s hs
  obtain ⟨p, hp, rfl⟩ := List.mem_map.1 hs
  rw [String.toList_ofList]
  exact not_mem_of_mem_splitOn _ _ p hp

/-- A step that is kept is one more name of the place. -/
theorem forall_isName_concat (hp : ∀ s ∈ place, IsName s) (hs : '/' ∉ s.toList)
    (hb : ¬(s = "" ∨ s = ".")) (hu : ¬s = "..") : ∀ s' ∈ place ++ [s], IsName s' := by
  rw [not_or] at hb
  rw [List.forall_mem_append]
  exact ⟨hp, List.forall_mem_singleton.2 ⟨⟨hb.1, hb.2, hs⟩, hu⟩⟩

/-- A path leads through names only. -/
theorem isName_of_follow (hp : ∀ s ∈ place, IsName s) (hs : ∀ s ∈ names, '/' ∉ s.toList)
    (h : follow top links place last names = .ok found) : ∀ s ∈ found, IsName s := by
  -- After the end of the path come a blank step, `..`, the ends at a new item and at a link, a link
  -- that is followed, and any other item; the remaining cases are errors.
  fun_induction follow top links place last names
  case case1 =>
    cases h
    exact hp
  case case2 ih => exact ih hp (List.forall_mem_cons.1 hs).2 h
  case case3 ih =>
    exact ih (fun s hm => hp s (List.dropLast_subset _ hm)) (List.forall_mem_cons.1 hs).2 h
  case case5 | case7 =>
    cases h
    exact forall_isName_concat hp (List.forall_mem_cons.1 hs).1 ‹_› ‹_›
  case case9 ih =>
    refine ih ?_ ?_ h
    · split
      · exact List.forall_mem_nil _
      · exact hp
    · rw [List.forall_mem_append]
      exact ⟨no_slash_steps _, (List.forall_mem_cons.1 hs).2⟩
  case case10 ih =>
    obtain ⟨hstep, hrest⟩ := List.forall_mem_cons.1 hs
    exact ih (forall_isName_concat hp hstep ‹_› ‹_›) hrest h
  case case4 | case6 | case8 | case11 | case12 => cases h

/-- A path leads to an item that is no link. -/
theorem exists_item_of_follow
    (hp : names = [] → ∃ item, top.at? place = some item ∧ ∀ target, item ≠ .link target)
    (h : follow top links place .target names = .ok found) :
    ∃ item, top.at? found = some item ∧ ∀ target, item ≠ .link target := by
  generalize hlast : PathEnd.target = last at h
  -- The hypothesis on the place counts only where no step is left: a step is taken from a folder.
  fun_induction follow top links place last names
  case case1 =>
    cases h
    exact hp rfl
  case case2 hat _ ih => exact ih (fun _ => ⟨_, hat, folder_ne_link _⟩) h
  case case3 hat _ ih =>
    obtain ⟨g, hg⟩ := at?_dropLast hat
    exact ih (fun _ => ⟨_, hg, folder_ne_link g⟩) h
  case case5 hend | case7 hend => cases hlast.trans hend.2
  case case9 ih =>
    exact ih (fun he => absurd (List.append_eq_nil_iff.1 he).1 (steps_ne_nil _)) h
  case case10 hat _ _ _ item hno hf ih =>
    refine ih (fun _ => ⟨item, ?_, hno⟩) h
    exact (Items.at?_append (List.cons_ne_nil _ _)).2 ⟨_, hat, Items.at?_singleton.trans hf⟩
  case case4 | case6 | case8 | case11 | case12 => cases h

/-- A path that leads somewhere is not empty, and its steps are followed from its start. -/
theorem follow_of_placeOf (h : t.placeOf p last = .ok found) :
    follow t.top maxLinks (t.startOf p) last (steps p.text) = .ok found := by
  rw [placeOf] at h
  split at h
  · cases h
  split at h
  · cases h
  split at h
  · cases h
  · exact h

/-- A path does not go on where there is no folder. -/
theorem follow_ne_ok (hno : ∀ inside, top.at? place ≠ some (.folder inside)) :
    follow top links place last (s :: names) ≠ .ok found := by
  rw [follow]
  split
  · next hat => exact absurd hat (hno _)
  · simp
  · simp

/-- A path leads through proper names, for it starts in a folder of the tree. -/
theorem isName_of_placeOf (h : t.placeOf p last = .ok found) : ∀ s ∈ found, IsName s := by
  have hf := follow_of_placeOf h
  have hstart : ∃ g, t.top.at? (t.startOf p) = some (.folder g) := by
    obtain ⟨s, rest, hs⟩ := List.exists_cons_of_ne_nil (steps_ne_nil p.text)
    rw [hs] at hf
    exact Classical.byContradiction fun hno => follow_ne_ok (fun g hg => hno ⟨g, hg⟩) hf
  obtain ⟨g, hg⟩ := hstart
  exact isName_of_follow (t.wellNamed_top.of_at? hg).1 (no_slash_steps p.text) hf

/-- Where a path leads to, there is something, and it is no link. -/
theorem exists_item_of_placeOf (h : t.placeOf p .target = .ok found) :
    ∃ item, t.top.at? found = some item ∧ ∀ target, item ≠ .link target :=
  exists_item_of_follow (fun he => absurd he (steps_ne_nil p.text)) (follow_of_placeOf h)

/-- The canonical path is that of the place where the path leads to. -/
theorem canonical_eq (h : t.placeOf p .target = .ok found) :
    t.canonical p = .ok (pathOf found) := by
  rw [canonical, h]
  rfl

/-- The path without links that leads to a folder is its own path without links. -/
theorem canonical_pathOf (h : t.placeOf p .target = .ok found)
    (hf : t.isFolder (pathOf found) = true) : t.canonical (pathOf found) = .ok (pathOf found) := by
  obtain ⟨item, hat, hl⟩ := exists_item_of_placeOf h
  rw [isFolder, item?] at hf
  cases hp : t.placeOf (pathOf found) .target with
  | error why =>
    rw [hp] at hf
    cases hf
  | ok again =>
    obtain rfl := eq_of_placeOf_pathOf (isName_of_placeOf h) hat hl hp
    exact canonical_eq hp

end

end TestImpact.FileTree
