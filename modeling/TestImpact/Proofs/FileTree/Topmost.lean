import TestImpact.Proofs.FileTree.PathOrder

/-!
# The topmost folders of an ending

A walk looks for the folders whose path ends in the components of a suffix, and does not go on
behind one that it has found. `FileTree.Matches` says which folders count, with no look at the walk:
names that are not pruned lead to the folder, links are not followed behind the root, and a root
that is a link does not count itself. Main statement: the walk lists exactly the topmost of them,
strictly in the order of paths, and no path goes on behind two of them
(`FileTree.matchingFolders_listsTopmost`).
-/

namespace TestImpact

namespace FileTree

/-! ## Suffixes -/

section
variable {suffix : String}

/-- A suffix has a step unless there is nothing in it but slashes and backslashes. -/
theorem suffixComponents_ne_nil (h : ∃ c ∈ suffix.toList, c ≠ '/' ∧ c ≠ '\\') :
    suffixComponents suffix ≠ [] := by
  obtain ⟨c, hc, hslash, hback⟩ := h
  have hm : c ∈ (replaceChar '\\' '/' suffix).toList := by
    rw [replaceChar, String.toList_ofList, List.mem_map]
    exact ⟨c, hc, if_neg hback⟩
  obtain ⟨p, hp, hcp⟩ := exists_mem_splitOn hm hslash
  rcases suffixComponents_cases (s := suffix) with ⟨hno, he⟩ | ⟨-, hhere⟩
  · -- The first piece that is not empty is no dot, so it is a step.
    obtain ⟨first, hfirst⟩ : ∃ first,
        ((replaceChar '\\' '/' suffix).toList.splitOn '/').find? (· ≠ []) = some first := by
      rw [← Option.isSome_iff_exists, List.find?_isSome]
      exact ⟨p, hp, decide_eq_true (List.ne_nil_of_mem hcp)⟩
    have hne : first ≠ [] := by simpa using List.find?_some hfirst
    have hdot : first ≠ ['.'] := fun h => hno (hfirst.trans (congrArg some h))
    rw [he, ne_eq, List.filterMap_eq_nil_iff]
    intro hall
    have hnone := hall first (List.mem_of_find?_eq_some hfirst)
    rw [Path.component?, if_neg (by simp [hne, hdot])] at hnone
    split at hnone <;> cases hnone
  · exact List.ne_nil_of_mem hhere

end

/-! ## The start of a walk -/

section
variable {t : FileTree} {top inside : Items} {links : Nat} {place names : List String}
  {p root : Path} {counts : Bool}

/-- The path leads to a link. -/
def IsLink (t : FileTree) (p : Path) : Prop := ∃ target, t.itemItself? p = some (.link target)

/-- A path that does not lead to a link leads to the same place if links at its end are followed. -/
theorem follow_itself (top : Items) (links : Nat) (place names : List String) :
    (∃ found target, follow top links place .itself names = .ok found ∧
        top.at? found = some (.link target)) ∨
      follow top links place .itself names = follow top links place .target names := by
  generalize hlast : PathEnd.itself = last
  -- After the end of the path come a blank step, `..`, a long name, the ends at a new item and at
  -- nothing, a link at the end, a link too many, a link that is followed, any other item, and no
  -- folder at hand.
  fun_induction follow top links place last names
  case case1 => exact .inr (by rw [follow])
  case case2 hat hblank ih =>
    refine ih.imp id fun h => h.trans ?_
    conv_rhs => rw [follow, hat]
    exact (if_pos hblank).symm
  case case3 hat hblank ih =>
    refine ih.imp id fun h => h.trans ?_
    exact (follow_up hat).symm
  case case4 hat hblank hup hlong =>
    refine .inr ?_
    rw [follow, hat]
    simp only [hblank, hup, hlong, if_true, if_false]
  case case5 hend => cases hlast.trans hend.2
  case case6 hat hblank hup hlong hf _ =>
    refine .inr ?_
    rw [follow, hat]
    simp [hblank, hup, hlong, hf]
  case case7 hat hblank hup hlong target hf _ =>
    refine .inl ⟨_, target, rfl, ?_⟩
    rw [Items.at?_append_eq hat, Items.at?_singleton, hf]
  case case8 hat hblank hup hlong target hf _ =>
    refine .inr ?_
    rw [follow, hat]
    simp [hblank, hup, hlong, hf]
  case case9 hat hblank hup hlong target hf _ n ih =>
    refine ih.imp id fun h => h.trans ?_
    conv_rhs => rw [follow, hat]
    simp [hblank, hup, hlong, hf]
  case case10 hat hblank hup hlong item hl hf ih =>
    refine ih.imp id fun h => h.trans ?_
    conv_rhs => rw [follow, hat]
    simp only [hblank, hup, hlong, hf, if_false]
  case case11 item hl hat =>
    refine .inr ?_
    cases item with
    | folder inside => exact (hl inside rfl).elim
    | file bytes => rw [follow, hat]
    | link target => rw [follow, hat]
  case case12 hat =>
    refine .inr ?_
    rw [follow, hat]

/-- What a path leads to with no link at its end followed, unless that is a link. -/
theorem itemItself?_eq (h : ¬t.IsLink p) : t.itemItself? p = t.item? p := by
  have hplace : t.placeOf p .itself = t.placeOf p .target := by
    rw [placeOf, placeOf]
    split
    · rfl
    split
    · rfl
    split
    · rfl
    next hempty hnul hlong =>
    refine (follow_itself t.top maxLinks (t.startOf p) (steps p.text)).resolve_left ?_
    rintro ⟨found, target, hfound, hat⟩
    refine h ⟨target, ?_⟩
    rw [itemItself?, placeOf, if_neg hempty, if_neg hnul, if_neg hlong, hfound]
    exact hat
  rw [itemItself?, item?, hplace]

/-- A walk starts in the folder that its root leads to. It counts unless the root is a link. -/
theorem walkStart?_eq_some_iff :
    t.walkStart? root = some (inside, counts) ↔
      t.item? root = some (.folder inside) ∧ (counts = true ↔ ¬t.IsLink root) := by
  have hlink : (∃ target, t.itemOf .itself root = some (.link target)) ↔ t.IsLink root := Iff.rfl
  rw [walkStart?_eq_some, hlink, itemOf_target, itemOf_itself]
  by_cases hl : t.IsLink root
  · obtain ⟨target, ht⟩ := id hl
    simp [hl, ht, and_comm]
  · simp [hl, itemItself?_eq hl, and_comm]

end

/-! ## The folders that count -/

section
variable {t : FileTree} {root : Path} {suffix : String} {pruned names front : List String}
  {inside f g : Items} {counts : Bool}

/-- The names lead from the root to the folder `g`, through folders whose names are not pruned, and
its path ends in the components of the suffix. Links are not followed behind the root, and a root
that is a link does not count. -/
structure Matches (t : FileTree) (root : Path) (suffix : String) (pruned names : List String)
    (g : Items) : Prop where
  reached : ∃ inside, t.item? root = some (.folder inside) ∧ inside.at? names = some (.folder g)
  entered : ∀ name ∈ names, name ∉ pruned
  ends : suffixComponents suffix <:+ (root.descend names).components
  not_isLink : names = [] → ¬t.IsLink root

/-- The folder counts, and no folder on the way to it from the root does. -/
structure IsTopmost (t : FileTree) (root : Path) (suffix : String) (pruned names : List String)
    (g : Items) : Prop extends t.Matches root suffix pruned names g where
  first : ∀ front f, front <+: names → t.Matches root suffix pruned front f → front = names

/-- A list of folders, with the names that lead to them, is the list of the topmost folders that
count: strictly in the order of paths, and with no two folders on the way to one place. -/
structure ListsTopmost (t : FileTree) (root : Path) (suffix : String) (pruned : List String)
    (found : List (List String × Items)) : Prop where
  sorted : found.Pairwise fun a b => (root.descend a.1).Precedes (root.descend b.1)
  mem_iff : ∀ names g, (names, g) ∈ found ↔ t.IsTopmost root suffix pruned names g
  apart : ∀ a ∈ found, ∀ b ∈ found, ∀ p : Path, p.startsWith (root.descend a.1) = true →
    p.startsWith (root.descend b.1) = true → a = b

/-- What it takes to count, in terms of the walk. -/
theorem matches_iff (hw : t.walkStart? root = some (inside, counts)) :
    t.Matches root suffix pruned names g ↔
      inside.at? names = some (.folder g) ∧ (∀ name ∈ names, name ∉ pruned) ∧
        (suffixComponents suffix).isSuffixOf (root.components ++ names.map .name) = true ∧
          (names = [] → counts = true) := by
  obtain ⟨hi, hcounts⟩ := walkStart?_eq_some_iff.1 hw
  have hnamed := wellNamed_of_walkStart? hw
  rw [List.isSuffixOf_iff_suffix, hcounts]
  refine ⟨fun h => ?_, fun ⟨hat, hentered, hends, hl⟩ => ⟨⟨inside, hi, hat⟩, hentered, ?_, hl⟩⟩
  · obtain ⟨inside', hi', hat⟩ := h.reached
    cases hi.symm.trans hi'
    exact ⟨hat, h.entered, Path.components_descend (hnamed.of_at? hat).1 ▸ h.ends, h.not_isLink⟩
  · rwa [Path.components_descend (hnamed.of_at? hat).1]

/-- Where the root counts, it is the only topmost folder. -/
theorem isTopmost_iff_of_root (hroot : t.Matches root suffix pruned [] inside) :
    t.IsTopmost root suffix pruned names g ↔ names = [] ∧ g = inside := by
  have heq : ∀ g, t.Matches root suffix pruned [] g → g = inside := by
    intro g h
    obtain ⟨f, hf, hat⟩ := h.reached
    obtain ⟨f', hf', hat'⟩ := hroot.reached
    cases hf.symm.trans hf'
    cases hat.symm.trans hat'
    rfl
  refine ⟨fun h => ?_, ?_⟩
  · obtain rfl := h.first [] inside List.nil_prefix hroot
    exact ⟨rfl, heq g h.toMatches⟩
  · rintro ⟨rfl, rfl⟩
    exact ⟨hroot, fun front f hp _ => List.prefix_nil.1 hp⟩

/-- Where the root does not count, the topmost folders are those that the walk finds below it. -/
theorem isTopmost_iff_isFound (hw : t.walkStart? root = some (inside, counts))
    (hroot : ∀ f, ¬t.Matches root suffix pruned [] f) :
    t.IsTopmost root suffix pruned names g ↔
      inside.at? names = some (.folder g) ∧
        Items.IsFound (fun names =>
          (suffixComponents suffix).isSuffixOf (root.components ++ names.map .name)) pruned []
          names := by
  refine ⟨fun h => ?_, fun ⟨hat, h⟩ => ⟨?_, fun front f hpre hm => ?_⟩⟩
  · obtain ⟨hat, hentered, hends, -⟩ := (matches_iff hw).1 h.toMatches
    refine ⟨hat, ?_, hentered, hends, ?_⟩
    · rintro rfl
      exact hroot g h.toMatches
    · rintro start rest rfl hstart hrest
      rw [← Bool.not_eq_true]
      intro haccepted
      obtain ⟨f, hf, -⟩ := (Items.at?_append hrest).1 hat
      have hm : t.Matches root suffix pruned start f := (matches_iff hw).2
        ⟨hf, (List.forall_mem_append.1 hentered).1, haccepted, fun h => absurd h hstart⟩
      exact hrest (List.self_eq_append_right.1 (h.first start f (List.prefix_append _ _) hm))
  · exact (matches_iff hw).2 ⟨hat, h.entered, h.accepted, fun he => absurd he h.ne_nil⟩
  · obtain ⟨rest, rfl⟩ := hpre
    have hstart : front ≠ [] := by
      rintro rfl
      exact hroot f hm
    by_contra hne
    have hno := h.first front rest rfl hstart fun hr => hne (by rw [hr, List.append_nil])
    rw [List.nil_append, ((matches_iff hw).1 hm).2.2.1] at hno
    cases hno

/-- A path that leads to a folder is the start of a walk. -/
theorem exists_walkStart? (hi : t.item? root = some (.folder inside)) :
    ∃ counts, t.walkStart? root = some (inside, counts) := by
  by_cases hl : t.IsLink root
  · exact ⟨false, walkStart?_eq_some_iff.2 ⟨hi, by simp [hl]⟩⟩
  · exact ⟨true, walkStart?_eq_some_iff.2 ⟨hi, by simp [hl]⟩⟩

/-- The folders that a walk lists are the topmost ones that count. -/
theorem mem_matchingFolders_iff (hs : suffixComponents suffix ≠ []) :
    (names, g) ∈ t.matchingFolders root suffix pruned ↔
      t.IsTopmost root suffix pruned names g := by
  rw [matchingFolders, if_neg (by simpa using hs)]
  cases hw : t.walkStart? root with
  | none =>
    refine iff_of_false List.not_mem_nil fun h => ?_
    obtain ⟨inside, hi, -⟩ := h.reached
    obtain ⟨counts, hstart⟩ := exists_walkStart? hi
    cases hw.symm.trans hstart
  | some start =>
    obtain ⟨inside, counts⟩ := start
    simp only [Bool.and_eq_true]
    split
    · next hroot =>
      have hm : t.Matches root suffix pruned [] inside := (matches_iff hw).2
        ⟨rfl, List.forall_mem_nil _, hroot.2, fun _ => hroot.1⟩
      rw [isTopmost_iff_of_root hm, List.mem_singleton, Prod.mk.injEq]
    · next hroot =>
      rw [mem_sortByNames, Items.mem_matching_iff (wellNamed_of_walkStart? hw).distinct,
        isTopmost_iff_isFound hw]
      · simp
      · intro f hm
        obtain ⟨-, -, haccepted, hcounts⟩ := (matches_iff hw).1 hm
        exact hroot ⟨hcounts rfl, haccepted⟩

/-- No path goes on behind two topmost folders. -/
theorem IsTopmost.eq_of_startsWith {p : Path}
    (ha : t.IsTopmost root suffix pruned front f) (hb : t.IsTopmost root suffix pruned names g)
    (hpa : p.startsWith (root.descend front) = true)
    (hpb : p.startsWith (root.descend names) = true) : front = names ∧ f = g := by
  obtain ⟨inside, hi, hfront⟩ := ha.reached
  obtain ⟨inside', hi', hnames⟩ := hb.reached
  cases hi.symm.trans hi'
  obtain ⟨counts, hw⟩ := exists_walkStart? hi
  have hnamed := wellNamed_of_walkStart? hw
  rw [Path.startsWith, List.isPrefixOf_iff_prefix,
    Path.components_descend (hnamed.of_at? hfront).1] at hpa
  rw [Path.startsWith, List.isPrefixOf_iff_prefix,
    Path.components_descend (hnamed.of_at? hnames).1] at hpb
  have hname : Function.Injective Component.name := fun _ _ h => Component.name.inj h
  have hpre : front <+: names ∨ names <+: front := by
    refine (List.prefix_or_prefix_of_prefix hpa hpb).imp (fun h => ?_) fun h => ?_
    all_goals
      rw [List.prefix_append_right_inj] at h
      exact (List.prefix_map_iff_of_injective hname).1 h
  have heq : front = names := by
    rcases hpre with h | h
    · exact hb.first _ _ h ha.toMatches
    · exact (ha.first _ _ h hb.toMatches).symm
  subst heq
  cases hfront.symm.trans hnames
  exact ⟨rfl, rfl⟩

/-- A walk lists the topmost folders that count, in the order of their paths. -/
theorem matchingFolders_listsTopmost (t : FileTree) (root : Path) (suffix : String)
    (pruned : List String) (hs : ∃ c ∈ suffix.toList, c ≠ '/' ∧ c ≠ '\\') :
    t.ListsTopmost root suffix pruned (t.matchingFolders root suffix pruned) := by
  have hmem : ∀ names g, (names, g) ∈ t.matchingFolders root suffix pruned ↔
      t.IsTopmost root suffix pruned names g :=
    fun _ _ => mem_matchingFolders_iff (suffixComponents_ne_nil hs)
  refine ⟨pairwise_matchingFolders.imp_of_mem ?_, hmem, ?_⟩
  · rintro ⟨a, f⟩ ⟨b, g⟩ ha hb ⟨hab, -⟩
    obtain ⟨inside, counts, hw, hata⟩ := at?_of_mem_matchingFolders ha
    obtain ⟨inside', counts', hw', hatb⟩ := at?_of_mem_matchingFolders hb
    cases hw.symm.trans hw'
    have hnamed := wellNamed_of_walkStart? hw
    exact Path.precedes_descend (hnamed.of_at? hata).1 (hnamed.of_at? hatb).1 hab
  · rintro ⟨a, f⟩ ha ⟨b, g⟩ hb p hpa hpb
    obtain ⟨rfl, rfl⟩ := ((hmem _ _).1 ha).eq_of_startsWith ((hmem _ _).1 hb) hpa hpb
    rfl

/-! ## A tree with nested modules -/

/-- A folder with a module inside another one, a build folder, and a link. -/
def moduleFolder : Items :=
  .folder "a" (.folder "src" .empty .empty)
    (.folder "b" (.folder "src" (.folder "x" (.folder "src" .empty .empty) .empty) .empty)
      (.folder "target" (.folder "src" .empty .empty) (.link "l" "b" .empty)))

/-- The tree with `moduleFolder` as its only folder. -/
def moduleTree : FileTree where
  disk := { items := .folder "p" moduleFolder .empty }
  here := []

/-- The walk of the example starts at its project, which counts as found. -/
theorem walkStart?_moduleTree :
    moduleTree.walkStart? ⟨"/p"⟩ = some (moduleFolder, true) := by
  have hp : moduleTree.placeOf (pathOf ["p"]) .itself = .ok ["p"] :=
    placeOf_pathOf (by decide) rfl (folder_ne_link _)
  have hr : pathOf ["p"] = ⟨"/p"⟩ := by decide
  rw [walkStart?, itemItself?, ← hr, hp]
  rfl

/-- The walk stops at the outer module, and neither enters the build folder nor follows the link. -/
theorem matchingFolders_listsTopmost_moduleTree :
    (∃ c ∈ "src/".toList, c ≠ '/' ∧ c ≠ '\\') ∧
      moduleTree.ListsTopmost ⟨"/p"⟩ "src/" ["target"]
        (moduleTree.matchingFolders ⟨"/p"⟩ "src/" ["target"]) ∧
      (moduleTree.matchingFolders ⟨"/p"⟩ "src/" ["target"]).map (·.1) =
        [["a", "src"], ["b", "src"]] := by
  have hs : ∃ c ∈ "src/".toList, c ≠ '/' ∧ c ≠ '\\' := ⟨'s', by decide, by decide, by decide⟩
  refine ⟨hs, matchingFolders_listsTopmost moduleTree ⟨"/p"⟩ "src/" ["target"] hs, ?_⟩
  have hm : moduleFolder.matching (fun names => (suffixComponents "src/").isSuffixOf
      (Path.components ⟨"/p"⟩ ++ names.map .name)) ["target"] [] =
        [(["a", "src"], .empty),
          (["b", "src"], .folder "x" (.folder "src" .empty .empty) .empty)] := by
    decide +kernel
  have hroot : (suffixComponents "src/").isSuffixOf
      (Path.components ⟨"/p"⟩ ++ [].map .name) = false := by
    decide +kernel
  rw [matchingFolders, walkStart?_moduleTree, if_neg (by decide +kernel)]
  simp only [Bool.true_and, hroot, Bool.false_eq_true, if_false, hm]
  rw [sortByNames, List.mergeSort_of_pairwise (by decide +kernel)]
  rfl

end

end FileTree

end TestImpact
