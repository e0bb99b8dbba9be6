import TestImpact.FileTree.Walk
import TestImpact.Layout
import TestImpact.Proofs.Text.Pieces

/-!
# Paths of names

A path counts in three readings: by the pieces between its slashes, by its components, and by the
segments of a changed path. Main statements: the text of a list of names is read as these names in
all of them (`piecesOf_intercalate`, `Path.components_intercalate`, `segments_intercalate`); and the
components of a configured folder are its segments, unless the folder starts with a `.`
(`FileTree.suffixComponents_eq`).
-/

namespace TestImpact

/-- The component that a step is. -/
def stepOf (s : String) : Component := if s = ".." then .up else .name s

section
variable {sep : Char} {cs ds : List Char} {ps : List (List Char)} {s : String} {names : List String}

/-! ## Pieces -/

/-- Slashes between texts are slashes between their characters. -/
theorem toList_intercalate_slash :
    ("/".intercalate names).toList = ['/'].intercalate (names.map String.toList) :=
  String.toList_intercalate

/-- The text of a path is what leads to its last name, and that name. -/
theorem exists_intercalate_append (folders : List String) :
    ∃ front, front.getLast?.all (· = '/') = true ∧
      ∀ last, ("/".intercalate (folders ++ [last])).toList = front ++ last.toList := by
  by_cases hne : folders = []
  · subst hne
    exact ⟨[], rfl, fun last => by simp⟩
  · refine ⟨("/".intercalate folders).toList ++ ['/'], by simp, fun last => ?_⟩
    rw [String.intercalate_append_of_ne_nil hne (List.cons_ne_nil _ _), String.toList_append,
      String.toList_append, String.intercalate_singleton]
    rfl

/-- Steps have no slashes in them. -/
theorem not_mem_slash (h : ∀ s ∈ names, IsStep s) : ∀ p ∈ names.map String.toList, '/' ∉ p := by
  intro p hp
  obtain ⟨s, hs, rfl⟩ := List.mem_map.1 hp
  exact (h s hs).no_slash

/-- Steps with slashes between them are the pieces of their path. -/
theorem splitOn_intercalate_slash (hne : names ≠ []) (h : ∀ s ∈ names, IsStep s) :
    ("/".intercalate names).toList.splitOn '/' = names.map String.toList := by
  rw [toList_intercalate_slash]
  exact List.splitOn_intercalate _ (not_mem_slash h) (by simpa using hne)

/-- Steps with slashes between them are read back from their path. -/
theorem piecesOf_intercalate (hne : names ≠ []) (h : ∀ s ∈ names, IsStep s) :
    piecesOf '/' ("/".intercalate names) = names := by
  rw [piecesOf, splitOn_intercalate_slash hne h, List.map_map]
  exact (List.map_congr_left fun s _ => String.ofList_toList).trans (List.map_id names)

/-! ## Components -/

/-- A step is not empty and no dot. -/
theorem IsStep.toList_ne (h : IsStep s) : s.toList ≠ [] ∧ s.toList ≠ ['.'] :=
  ⟨fun he => h.ne_empty (String.toList_inj.1 he), fun he => h.ne_here (String.toList_inj.1 he)⟩

/-- A step stands for its component. -/
theorem IsStep.component? (h : IsStep s) : Path.component? s.toList = some (stepOf s) := by
  obtain ⟨he, hh⟩ := h.toList_ne
  rw [Path.component?, if_neg (by simp [he, hh]), stepOf, String.ofList_toList]
  by_cases hu : s = ".."
  · rw [if_pos hu]
    exact if_pos (congrArg String.toList hu)
  · rw [if_neg hu]
    exact if_neg fun h => hu (String.toList_inj.1 h)

/-- The component of a step is written as the step. -/
theorem text_stepOf : (stepOf s).text = s := by
  rw [stepOf]
  split
  · next h => rw [h]; rfl
  · rfl

/-- The components of names are names. -/
theorem map_stepOf (h : ∀ s ∈ names, IsName s) : names.map stepOf = names.map .name :=
  List.map_congr_left fun s hs => if_neg (h s hs).ne_up

/-- The components of steps are kept. -/
theorem filterMap_component? (h : ∀ s ∈ names, IsStep s) :
    (names.map String.toList).filterMap Path.component? = names.map stepOf := by
  induction names with
  | nil => rfl
  | cons s names ih =>
    obtain ⟨hs, hn⟩ := List.forall_mem_cons.1 h
    rw [List.map_cons, List.filterMap_cons, hs.component?, ih hn, List.map_cons]

/-- The components of the text of steps, wherever it stands in a path. -/
theorem filterMap_splitOn_intercalate (h : ∀ s ∈ names, IsStep s) :
    (("/".intercalate names).toList.splitOn '/').filterMap Path.component? = names.map stepOf := by
  by_cases hne : names = []
  · subst hne
    rfl
  · rw [splitOn_intercalate_slash hne h, filterMap_component? h]

/-- Different steps have different components. -/
theorem stepOf_injective : Function.Injective stepOf :=
  Function.LeftInverse.injective fun _ => text_stepOf

namespace Path
variable {text : String} {p : List Char}

/-- A path that starts with no slash and no `.`. -/
theorem components_of_splitOn (hp : text.toList.splitOn '/' = p :: ps) (hne : p ≠ [])
    (hh : p ≠ ['.']) : components ⟨text⟩ = (p :: ps).filterMap component? := by
  rw [components, hp]
  split
  · next he => exact absurd (List.cons.inj he).1 hne
  · next he => exact absurd (List.cons.inj he).1 hne
  · next he => exact absurd (List.cons.inj he).1 hh
  · rfl

/-- A path that starts with a slash. -/
theorem components_of_slash {r : List Char} (h : text.toList = '/' :: r) :
    components ⟨text⟩ = .root :: (r.splitOn '/').filterMap component? := by
  have hp : text.toList.splitOn '/' = [] :: r.splitOn '/' := by rw [h, splitOn_cons_self]
  cases hr : r.splitOn '/' with
  | nil => exact absurd hr (List.splitOn_ne_nil _ _)
  | cons p ps => rw [components, hp, hr]

/-- A path that starts with a `.`. -/
theorem components_of_here (hp : text.toList.splitOn '/' = ['.'] :: ps) :
    components ⟨text⟩ = .here :: ps.filterMap component? := by
  rw [components, hp]
  rfl

/-- A piece behind the first one stands for neither the root nor the start. -/
theorem component?_ne {c : Component} (h : component? p = some c) : c ≠ .root ∧ c ≠ .here := by
  rw [component?] at h
  split at h
  · cases h
  · split at h <;> cases h <;> exact ⟨nofun, nofun⟩

/-- A component that is a name has a name of a file or a folder. -/
theorem isName_of_component? (hp : '/' ∉ p) (h : component? p = some (.name s)) : IsName s := by
  rw [component?] at h
  split at h
  · cases h
  next hd =>
  split at h
  · cases h
  next hu =>
  obtain rfl := Component.name.inj (Option.some.inj h)
  have hne : ∀ t : String, p ≠ t.toList → String.ofList p ≠ t := by
    rintro t ht rfl
    exact ht String.toList_ofList.symm
  simp only [Bool.or_eq_true, decide_eq_true_eq, not_or] at hd
  exact ⟨⟨hne "" hd.1, hne "." hd.2, by rwa [String.toList_ofList]⟩, hne ".." hu⟩

/-- An absolute path starts with a slash. -/
theorem exists_of_isAbsolute (h : FileTree.isAbsolute text = true) :
    ∃ r, text.toList = '/' :: r := by
  obtain ⟨r, hr⟩ := List.isPrefixOf_iff_prefix.1 h
  exact ⟨r, hr.symm⟩

/-- A `.` in an absolute path does not count. -/
theorem here_not_mem_components (h : FileTree.isAbsolute text = true) :
    .here ∉ components ⟨text⟩ := by
  obtain ⟨r, hr⟩ := exists_of_isAbsolute h
  rw [components_of_slash hr, List.mem_cons, List.mem_filterMap]
  rintro (he | ⟨p, -, hp⟩)
  · cases he
  · exact (component?_ne hp).2 rfl

/-- A path of steps has these as its components. -/
theorem components_intercalate (h : ∀ s ∈ names, IsStep s) :
    components ⟨"/".intercalate names⟩ = names.map stepOf := by
  cases names with
  | nil => rfl
  | cons s names =>
    have hs := (h s List.mem_cons_self).toList_ne
    have hp := splitOn_intercalate_slash (List.cons_ne_nil _ _) h
    rw [components_of_splitOn hp hs.1 hs.2]
    exact filterMap_component? h

end Path

/-! ## Segments -/

/-- A character that does not occur is not replaced. -/
theorem replaceChar_of_not_mem {old new : Char} (h : old ∉ s.toList) :
    replaceChar old new s = s := by
  have hc : ∀ c ∈ s.toList, (if c = old then new else c) = id c := by
    intro c hc
    refine if_neg ?_
    rintro rfl
    exact h hc
  rw [replaceChar, List.map_congr_left hc, List.map_id, String.ofList_toList]

/-- A character of a path is a slash or stands in a step. -/
theorem not_mem_intercalate_slash {c : Char} (hc : c ≠ '/') (h : ∀ s ∈ names, c ∉ s.toList) :
    c ∉ ("/".intercalate names).toList := by
  rw [toList_intercalate_slash]
  induction names with
  | nil => exact List.not_mem_nil
  | cons s names ih =>
    obtain ⟨hs, hn⟩ := List.forall_mem_cons.1 h
    cases names with
    | nil => simpa using hs
    | cons t names =>
      rw [List.map_cons, List.map_cons, List.intercalate_cons_cons, List.mem_append,
        List.mem_append, List.mem_singleton]
      exact fun hm => hm.elim (fun hm => hm.elim hs hc) (ih hn)

/-- A path of names without backslashes has these as its segments. -/
theorem segments_intercalate (h : ∀ s ∈ names, IsStep s) (hb : ∀ s ∈ names, '\\' ∉ s.toList) :
    segments ("/".intercalate names) = names := by
  rw [segments, replaceChar_of_not_mem (not_mem_intercalate_slash (by decide) hb)]
  cases names with
  | nil => decide
  | cons s names =>
    rw [piecesOf_intercalate (List.cons_ne_nil _ _) h, List.filter_eq_self]
    intro t ht
    simp [(h t ht).ne_empty, (h t ht).ne_here]

/-- A segment of a path is a step without a backslash. -/
theorem isStep_of_mem_segments {path : String} (h : s ∈ segments path) :
    IsStep s ∧ '\\' ∉ s.toList := by
  obtain ⟨hpiece, hs⟩ := List.mem_filter.1 h
  obtain ⟨p, hp, rfl⟩ := List.mem_map.1 hpiece
  rw [Bool.and_eq_true, decide_eq_true_eq, decide_eq_true_eq] at hs
  have hslash : '/' ∉ p := not_mem_of_mem_splitOn _ _ p hp
  have hback : '\\' ∉ p := by
    intro hm
    have ht := subset_of_mem_splitOn hp hm
    rw [replaceChar, String.toList_ofList, List.mem_map] at ht
    obtain ⟨c, -, hc⟩ := ht
    split at hc
    · cases hc
    · next hne => exact hne hc
  rw [← String.toList_ofList (l := p)] at hslash hback
  exact ⟨⟨hs.1, hs.2, hslash⟩, hback⟩

/-! ## Configured folders -/

/-- The first step of a configured folder is a `.`. -/
def StartsHere (folder : String) : Prop :=
  ((replaceChar '\\' '/' folder).toList.splitOn '/').find? (· ≠ []) = some ['.']

instance : Decidable (StartsHere s) := inferInstanceAs (Decidable (_ = _))

/-- Separators at the start make empty pieces. -/
theorem splitOn_dropWhile (sep : Char) (cs : List Char) :
    ∃ n, cs.splitOn sep = List.replicate n [] ++ (cs.dropWhile (· = sep)).splitOn sep := by
  induction cs with
  | nil => exact ⟨0, rfl⟩
  | cons c cs ih =>
    by_cases h : c = sep
    · obtain ⟨n, hn⟩ := ih
      refine ⟨n + 1, ?_⟩
      rw [h, splitOn_cons_self, List.dropWhile_cons_of_pos (by simp), hn]
      rfl
    · exact ⟨0, by rw [List.dropWhile_cons_of_neg (by simpa using h)]; rfl⟩

/-- Separators at the end make empty pieces. -/
theorem splitOn_append_replicate {n : Nat} :
    (cs ++ List.replicate n sep).splitOn sep = cs.splitOn sep ++ List.replicate n [] := by
  induction n generalizing cs with
  | zero => simp
  | succ n ih =>
    have hp : ([] ++ List.replicate n sep).splitOn sep = [] :: List.replicate n [] := ih
    rw [List.nil_append] at hp
    rw [List.replicate_succ, List.splitOn_append_cons_self, hp]
    rfl

/-- The text without the separators at its start and at its end. -/
def trimSeparators (sep : Char) (cs : List Char) : List Char :=
  ((cs.dropWhile (· = sep)).reverse.dropWhile (· = sep)).reverse

/-- What is dropped of the end are separators. -/
theorem exists_append_replicate (sep : Char) (cs : List Char) :
    ∃ n, cs = (cs.reverse.dropWhile (· = sep)).reverse ++ List.replicate n sep := by
  have hall : ∀ c ∈ (cs.reverse.takeWhile (· = sep)).reverse, c = sep := by
    intro c hc
    simpa using List.all_eq_true.1 List.all_takeWhile c (List.mem_reverse.1 hc)
  refine ⟨(cs.reverse.takeWhile (· = sep)).reverse.length, ?_⟩
  rw [← List.eq_replicate_of_mem hall, ← List.reverse_append, List.takeWhile_append_dropWhile,
    List.reverse_reverse]

/-- Separators at the ends of a text give empty pieces. -/
theorem splitOn_trimSeparators (sep : Char) (cs : List Char) :
    ∃ m n, cs.splitOn sep =
      List.replicate m [] ++ ((trimSeparators sep cs).splitOn sep ++ List.replicate n []) := by
  obtain ⟨m, hm⟩ := splitOn_dropWhile sep cs
  obtain ⟨n, hn⟩ := exists_append_replicate sep (cs.dropWhile (· = sep))
  refine ⟨m, n, ?_⟩
  rw [hm, trimSeparators, ← splitOn_append_replicate, ← hn]

/-- A trimmed text starts with no separator. -/
theorem head?_trimSeparators (sep : Char) (cs : List Char) :
    (trimSeparators sep cs).head? ≠ some sep := by
  obtain ⟨n, hn⟩ := exists_append_replicate sep (cs.dropWhile (· = sep))
  intro h
  have hd := List.head?_dropWhile_not (· = sep) cs
  rw [hn, List.head?_append] at hd
  rw [trimSeparators] at h
  rw [h] at hd
  simp at hd

/-- Empty pieces stand for nothing. -/
theorem filterMap_replicate_nil {n : Nat} :
    (List.replicate n ([] : List Char)).filterMap Path.component? = [] := by
  induction n with
  | zero => rfl
  | succ n ih => rw [List.replicate_succ, List.filterMap_cons]; exact ih

/-- Among empty pieces there is none that is not. -/
theorem find?_replicate_nil {n : Nat} :
    (List.replicate n ([] : List Char)).find? (· ≠ []) = none := by
  simp

namespace FileTree

/-- The components of a configured folder. -/
theorem suffixComponents_cases :
    ¬StartsHere s ∧ suffixComponents s =
        ((replaceChar '\\' '/' s).toList.splitOn '/').filterMap Path.component? ∨
      StartsHere s ∧ .here ∈ suffixComponents s := by
  obtain ⟨cs, hcs⟩ : ∃ cs, (replaceChar '\\' '/' s).toList = cs := ⟨_, rfl⟩
  have hcomp : suffixComponents s = Path.components ⟨.ofList (trimSeparators '/' cs)⟩ := by
    rw [suffixComponents, hcs]
    rfl
  obtain ⟨m, n, hp⟩ := splitOn_trimSeparators '/' cs
  have hmap : (cs.splitOn '/').filterMap Path.component? =
      ((trimSeparators '/' cs).splitOn '/').filterMap Path.component? := by
    rw [hp, List.filterMap_append, List.filterMap_append, filterMap_replicate_nil,
      filterMap_replicate_nil, List.nil_append, List.append_nil]
  have hstart : (cs.splitOn '/').find? (· ≠ []) =
      ((trimSeparators '/' cs).splitOn '/').find? (· ≠ []) := by
    rw [hp, List.find?_append, List.find?_append, find?_replicate_nil, find?_replicate_nil]
    simp
  rw [StartsHere, hcs, hcomp, hmap, hstart]
  have hhead := head?_trimSeparators '/' cs
  cases ht : trimSeparators '/' cs with
  | nil => exact .inl ⟨by simp, rfl⟩
  | cons c ds =>
    rw [ht] at hhead
    have hc : c ≠ '/' := fun he => hhead (congrArg some he)
    obtain ⟨p, ps, -, hq⟩ := exists_splitOn_cons hc ds
    have hq' : (String.ofList (c :: ds)).toList.splitOn '/' = (c :: p) :: ps := by
      rw [String.toList_ofList, hq]
    have hf : ((c :: ds).splitOn '/').find? (· ≠ []) = some (c :: p) := by
      rw [hq, List.find?_cons_of_pos (by simp)]
    rw [hf]
    by_cases hh : c :: p = ['.']
    · refine .inr ⟨congrArg some hh, ?_⟩
      rw [hh] at hq'
      rw [Path.components_of_here hq']
      exact List.mem_cons_self
    · refine .inl ⟨fun he => hh (Option.some.inj he), ?_⟩
      rw [Path.components_of_splitOn hq' (List.cons_ne_nil _ _) hh, hq]

/-- Pieces without `..` stand for names, but for the empty ones and dots. -/
theorem filterMap_component?_pieces
    (h : ".." ∉ (ps.map String.ofList).filter fun s => s ≠ "" && s ≠ ".") :
    ps.filterMap Path.component? =
      ((ps.map String.ofList).filter fun s => s ≠ "" && s ≠ ".").map .name := by
  induction ps with
  | nil => rfl
  | cons p ps ih =>
    rw [List.map_cons, List.filter_cons] at h ⊢
    rw [List.filterMap_cons, Path.component?]
    by_cases hd : p = [] ∨ p = ['.']
    · have hf : (String.ofList p ≠ "" && String.ofList p ≠ ".") = false := by
        rcases hd with rfl | rfl <;> decide
      rw [hf] at h ⊢
      rw [if_pos (by simpa using hd)]
      exact ih h
    · have hne : ∀ t : String, t.toList = [] ∨ t.toList = ['.'] → String.ofList p ≠ t := by
        rintro t ht rfl
        rw [String.toList_ofList] at ht
        exact hd ht
      have hf : (String.ofList p ≠ "" && String.ofList p ≠ ".") = true := by
        simp [hne "" (.inl rfl), hne "." (.inr rfl)]
      rw [hf] at h ⊢
      rw [if_pos rfl, List.mem_cons, not_or] at h
      have hu : p ≠ ['.', '.'] := by
        rintro rfl
        exact h.1 rfl
      rw [if_neg (by simpa using hd), if_neg hu, if_pos rfl, List.map_cons]
      exact congrArg _ (ih h.2)

/-- The components of a configured folder are its segments, unless it starts with a `.`. -/
theorem suffixComponents_eq (hu : ".." ∉ segments s) (hs : ¬StartsHere s) :
    suffixComponents s = (segments s).map .name := by
  obtain ⟨-, h⟩ := suffixComponents_cases.resolve_right fun h => hs h.1
  rw [h]
  exact filterMap_component?_pieces hu

/-- A configured folder that starts with a `.` has a component for it. -/
theorem here_mem_suffixComponents (hs : StartsHere s) : .here ∈ suffixComponents s :=
  (suffixComponents_cases.resolve_left fun h => h.1 hs).2

end FileTree

end

end TestImpact
