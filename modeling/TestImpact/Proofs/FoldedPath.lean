import TestImpact.Proofs.FileTree.Place
import TestImpact.SearchRoots

/-!
# Folded paths

A path is folded by its text alone: each `..` takes a name away. At the top there is none, and a
`..` that is met there stays until the next one takes it away. Main statements: the path of a target
is the place to which its steps lead, with a `..` in front if an odd number of them was met at the
top (`targetPath_eq`); so it is inside the root if that place is and no `..` is left
(`startsWith_candidate`).
-/

namespace TestImpact

open FileTree (pathOf isAbsolute)

/-- The place to which a component leads from another place. Above the top there is nothing. -/
def stepFrom (place : List String) : Component → List String
  | .up => place.dropLast
  | .name s => place ++ [s]
  | _ => place

/-- The place to which components lead from another place, by their text alone. -/
def placeFrom (place : List String) (cs : List Component) : List String := cs.foldl stepFrom place

/-- How many `..` are met at the top on the way. -/
def upsAtTop (place : List String) : List Component → Nat
  | [] => 0
  | c :: cs => (if c = .up ∧ place = [] then 1 else 0) + upsAtTop (stepFrom place c) cs

/-- The component is a name or `..`. -/
def Component.IsInner (c : Component) : Prop := c ≠ .root ∧ c ≠ .here

/-- The folded steps of a place, the last one first; `left` says that a `..` is left at the top. -/
def foldedSteps (left : Bool) (place : List String) : List Component :=
  (place.map Component.name).reverse ++ ((if left then [.up] else []) ++ [.root])

section
variable {c : Component} {cs : List Component} {place names base : List String} {left : Bool}
  {s target : String}

/-! ## Folding -/

/-- Folding one component more takes one step from the place, or keeps a `..` at the top. -/
theorem fold_foldedSteps (hc : c.IsInner) :
    Path.fold (foldedSteps left place) c =
      foldedSteps (left ^^ decide (c = .up ∧ place = [])) (stepFrom place c) := by
  cases c with
  | root => exact absurd rfl hc.1
  | here => exact absurd rfl hc.2
  | name s => simp [Path.fold, foldedSteps, stepFrom]
  | up =>
    rcases place.eq_nil_or_concat with rfl | ⟨front, s, rfl⟩
    · cases left <;> rfl
    · simp [Path.fold, foldedSteps, stepFrom]

/-- Folding leads to the place of the steps, and leaves a `..` for every second one at the top. -/
theorem foldl_fold (hc : ∀ c ∈ cs, c.IsInner) :
    cs.foldl Path.fold (foldedSteps left place) =
      foldedSteps (left ^^ decide (upsAtTop place cs % 2 = 1)) (placeFrom place cs) := by
  induction cs generalizing left place with
  | nil => simp [upsAtTop, placeFrom]
  | cons c cs ih =>
    obtain ⟨hc, hcs⟩ := List.forall_mem_cons.1 hc
    have hp : placeFrom place (c :: cs) = placeFrom (stepFrom place c) cs := rfl
    rw [List.foldl_cons, fold_foldedSteps hc, ih hcs, hp, upsAtTop, Bool.xor_assoc]
    congr 2
    split
    · next h =>
      rw [decide_eq_true h, Bool.true_xor, ← decide_not]
      exact decide_eq_decide.2 (by omega)
    · next h => rw [decide_eq_false h, Bool.false_xor, Nat.zero_add]

/-! ## The path of a target -/

/-- The text of a target as a path: leading colons do not count, others are slashes. -/
def targetText (target : String) : String :=
  .ofList ((target.toList.dropWhile (· = ':')).map fun c => if c = ':' then '/' else c)

/-- The steps of a target. -/
def targetSteps (target : String) : List Component :=
  ((targetText target).toList.splitOn '/').filterMap Path.component?

/-- The place that a target's steps start from: an absolute target starts at the top. -/
def targetBase (root : List String) (target : String) : List String :=
  if isAbsolute (targetText target) then [] else root

/-- The place that a target leads to from the root by its text alone. -/
def targetPlace (root : List String) (target : String) : List String :=
  placeFrom (targetBase root target) (targetSteps target)

/-- An odd number of `..` of the target is met at the top. -/
def LeavesUp (root : List String) (target : String) : Prop :=
  upsAtTop (targetBase root target) (targetSteps target) % 2 = 1

instance {root : List String} : Decidable (LeavesUp root target) :=
  inferInstanceAs (Decidable (_ = _))

/-- Only the path of the top ends in a slash. -/
theorem not_endsIn_slash (hb : ∀ s ∈ base, IsName s) (hne : base ≠ []) :
    endsIn "/" (pathOf base).text = false := by
  obtain ⟨front, last, rfl⟩ : ∃ front last, base = front ++ [last] :=
    ⟨_, _, (List.dropLast_concat_getLast hne).symm⟩
  obtain ⟨cs, -, htext⟩ := exists_intercalate_append front
  have hlast : IsName last := hb last (List.mem_append_right _ (List.mem_singleton_self _))
  have ht : (pathOf (front ++ [last])).text.toList = '/' :: (cs ++ last.toList) := by
    rw [FileTree.toList_pathOf, htext]
  rw [← Bool.not_eq_true, endsIn, ht, List.isSuffixOf_iff_suffix]
  rintro ⟨more, hm⟩
  obtain ⟨r, c, hr⟩ : ∃ r c, last.toList = r ++ [c] :=
    ⟨_, _, (List.dropLast_concat_getLast hlast.toList_ne.1).symm⟩
  have hc : '/' = c := by
    rw [hr, ← List.append_assoc, ← List.cons_append] at hm
    exact List.singleton_inj.1 (List.append_inj_right' hm rfl)
  refine hlast.no_slash ?_
  rw [hr, hc]
  exact List.mem_append_right _ (List.mem_singleton_self _)

/-- A slash in front adds no component. -/
theorem filterMap_splitOn_slash {cs : List Char} :
    (('/' :: cs).splitOn '/').filterMap Path.component? =
      (cs.splitOn '/').filterMap Path.component? := by
  rw [splitOn_cons_self]
  rfl

/-- The components of a text that is joined to the path of a place. -/
theorem components_join (hb : ∀ s ∈ base, IsName s) (text : String) :
    ((pathOf base).join text).components =
      .root :: ((if isAbsolute text then [] else base).map .name ++
        (text.toList.splitOn '/').filterMap Path.component?) := by
  rw [Path.join, isAbsolute]
  split
  · next h =>
    obtain ⟨r, hr⟩ := Path.exists_of_isAbsolute h
    rw [Path.components_of_slash hr, hr, filterMap_splitOn_slash]
    rfl
  · by_cases hne : base = []
    · subst hne
      have hj : (pathOf []).text.isEmpty || endsIn "/" (pathOf []).text := by decide
      have ht : ((pathOf []).text ++ text).toList = '/' :: text.toList := String.toList_append
      rw [if_pos hj, Path.components_of_slash ht]
      rfl
    · rw [FileTree.isEmpty_pathOf, not_endsIn_slash hb hne]
      have ht : ((pathOf base).text ++ "/" ++ text).toList =
          '/' :: (("/".intercalate base).toList ++ '/' :: text.toList) := by
        simp [String.toList_append, FileTree.toList_pathOf]
      refine (Path.components_of_slash ht).trans ?_
      rw [List.splitOn_append_cons_self, List.filterMap_append,
        filterMap_splitOn_intercalate fun s hs => (hb s hs).toIsStep, map_stepOf hb]

/-- Names lead down from the place. -/
theorem placeFrom_names :
    placeFrom place (names.map .name ++ cs) = placeFrom (place ++ names) cs := by
  induction names generalizing place with
  | nil => rw [List.append_nil]; rfl
  | cons s names ih =>
    have hp : placeFrom place ((s :: names).map .name ++ cs) =
        placeFrom (place ++ [s]) (names.map .name ++ cs) := rfl
    rw [hp, ih, List.append_assoc]
    rfl

/-- Names do not count as steps over the top. -/
theorem upsAtTop_names : upsAtTop place (names.map .name ++ cs) = upsAtTop (place ++ names) cs := by
  induction names generalizing place with
  | nil => rw [List.append_nil]; rfl
  | cons s names ih =>
    rw [List.map_cons, List.cons_append, upsAtTop, if_neg nofun, Nat.zero_add, stepFrom, ih,
      List.append_assoc]
    rfl

/-- Folded steps are written as the path of their place, with the `..` that is kept. -/
theorem ofComponents_foldedSteps :
    Path.ofComponents (foldedSteps left place).reverse =
      pathOf ((if left then [".."] else []) ++ place) := by
  have hr : (foldedSteps left place).reverse =
      .root :: ((if left then [.up] else []) ++ place.map .name) := by
    cases left <;> simp [foldedSteps]
  have hp : (place.map Component.name).map Component.text = place :=
    (List.map_map).trans (List.map_id place)
  have ht : ((if left then [Component.up] else []) ++ place.map Component.name).map Component.text =
      (if left then [".."] else []) ++ place := by
    rw [List.map_append, hp]
    cases left <;> rfl
  rw [hr, Path.ofComponents, ht, pathOf]

/-- The path of a target is the place that it leads to by its text alone; one `..` may be left at
the top. -/
theorem targetPath_eq (hb : ∀ s ∈ base, IsName s) :
    SearchRoots.targetPath (pathOf base) target =
      pathOf ((if LeavesUp base target then [".."] else []) ++ targetPlace base target) := by
  have hc : ∀ c ∈ (targetBase base target).map Component.name ++ targetSteps target, c.IsInner := by
    intro c hc
    rcases List.mem_append.1 hc with hc | hc
    · obtain ⟨s, -, rfl⟩ := List.mem_map.1 hc
      exact ⟨nofun, nofun⟩
    · obtain ⟨p, -, hp⟩ := List.mem_filterMap.1 hc
      exact Path.component?_ne hp
  have hj : ((pathOf base).join (targetText target)).components =
      .root :: ((targetBase base target).map .name ++ targetSteps target) := components_join hb _
  have hf : Path.fold [] .root = foldedSteps false [] := rfl
  show Path.normalize ((pathOf base).join (targetText target)) = _
  rw [Path.normalize, hj, List.foldl_cons, hf, foldl_fold hc, ofComponents_foldedSteps,
    placeFrom_names, upsAtTop_names, Bool.false_xor, List.nil_append]
  simp only [decide_eq_true_eq]
  rfl

/-! ## Inside the root -/

/-- All steps of a place stay proper names. -/
theorem isName_placeFrom (hp : ∀ s ∈ place, IsName s) (hc : ∀ s, .name s ∈ cs → IsName s) :
    ∀ s ∈ placeFrom place cs, IsName s := by
  induction cs generalizing place with
  | nil => exact hp
  | cons c cs ih =>
    refine ih ?_ fun s hs => hc s (List.mem_cons_of_mem _ hs)
    cases c with
    | root | here => exact hp
    | up => exact fun s hs => hp s (List.dropLast_subset _ hs)
    | name s =>
      rw [stepFrom, List.forall_mem_append]
      exact ⟨hp, List.forall_mem_singleton.2 (hc s List.mem_cons_self)⟩

/-- The place that a target's text leads to has proper names. -/
theorem isName_targetPlace (hb : ∀ s ∈ base, IsName s) :
    ∀ s ∈ targetPlace base target, IsName s := by
  refine isName_placeFrom ?_ ?_
  · rw [targetBase]
    split
    · exact List.forall_mem_nil _
    · exact hb
  · intro s hs
    obtain ⟨p, hp, hc⟩ := List.mem_filterMap.1 hs
    exact Path.isName_of_component? (not_mem_of_mem_splitOn _ _ p hp) hc

/-- The path of a target is inside the root if its place is, and no `..` is left; but at the top
everything is inside. -/
theorem startsWith_candidate (hb : ∀ s ∈ base, IsName s) :
    (SearchRoots.targetPath (pathOf base) target).startsWith (pathOf base) = true ↔
      base <+: targetPlace base target ∧ (LeavesUp base target → base = []) := by
  have hn : ∀ s ∈ base, IsStep s := fun s hs => (hb s hs).toIsStep
  have hp : ∀ s ∈ (if LeavesUp base target then [".."] else []) ++ targetPlace base target,
      IsStep s := by
    rw [List.forall_mem_append]
    refine ⟨?_, fun s hs => (isName_targetPlace hb s hs).toIsStep⟩
    split
    · have hup : IsStep ".." := ⟨by decide, by decide, by decide⟩
      exact List.forall_mem_singleton.2 hup
    · exact List.forall_mem_nil _
  rw [targetPath_eq hb, FileTree.startsWith_pathOf hn hp]
  split
  · next hup =>
    cases base with
    | nil => exact iff_of_true List.nil_prefix ⟨List.nil_prefix, fun _ => rfl⟩
    | cons s base =>
      rw [List.singleton_append, List.cons_prefix_cons]
      exact iff_of_false (fun h => (hb s List.mem_cons_self).ne_up h.1) fun h => nomatch h.2 hup
  · next hup =>
    rw [List.nil_append]
    exact (and_iff_left fun h => absurd h hup).symm

end

end TestImpact
