import TestImpact.Java.ClassFile
import TestImpact.Proofs.Path

/-!
# The class that a Java file holds

The class is read off the path without its extension, which is cut from the path's text. Main
statement: below its source folder a file is taken for the class that the names of its folders and
its own stem spell, but a stem `.` is taken for `..` (`classAt?_intercalate`).
-/

namespace TestImpact.Java

/-- The name that a file of the given stem gives its class. The text in front of the extension ends
in `..` if the stem is a dot, and nothing is cut from that. -/
def classStem (stem : String) : String := if stem = "." then ".." else stem

section
variable {folders : List String} {stem : String} {cs front : List Char}

/-- A file name in front of its extension. -/
theorem splitExtension_append {ext : List Char} (hcs : cs ≠ []) (he : '.' ∉ ext) :
    Path.splitExtension (cs ++ '.' :: ext) = (cs, some ext) := by
  rw [Path.splitExtension, beforeLast_append_cons he, afterLast_append_cons he,
    if_pos ⟨by simp, hcs⟩]

/-- A file name that ends in a dot keeps it when slashes are dropped at the end. -/
theorem dropTrailing_reverse (hcs : cs ≠ []) (hs : '/' ∉ cs) :
    Path.dropTrailing (front ++ (cs ++ ['.'])).reverse = '.' :: (cs.reverse ++ front.reverse) := by
  have he : (front ++ (cs ++ ['.'])).reverse = '.' :: (cs.reverse ++ front.reverse) := by simp
  rw [he]
  cases hr : cs.reverse with
  | nil => exact absurd (List.reverse_eq_nil_iff.1 hr) hcs
  | cons c r =>
    have hc : c ≠ '/' := by
      rintro rfl
      exact hs (List.mem_reverse.1 (hr ▸ List.mem_cons_self))
    rw [List.cons_append, Path.dropTrailing]
    · exact fun r he => absurd (List.cons.inj he).1 (by decide)
    · exact fun r he => hc (List.cons.inj (List.cons.inj he).2).1

/-- What is left of a path when the extension and the dot in front of it are cut. -/
theorem cutAtStem_append (hf : front.getLast?.all (· = '/') = true) (hcs : cs ≠ [])
    (hs : '/' ∉ cs) :
    Path.cutAtStem (front ++ (cs ++ ['.'])) = front ++ if cs = ['.'] then ['.', '.'] else cs := by
  have hne : ∀ c ∈ '.' :: cs.reverse, (c ≠ '/' : Bool) = true := by
    intro c hc
    rcases List.mem_cons.1 hc with rfl | hc
    · decide
    · simpa using fun he : c = '/' => hs (he ▸ List.mem_reverse.1 hc)
  have hfront : front.reverse.takeWhile (· ≠ '/') = [] ∧
      front.reverse.dropWhile (· ≠ '/') = front.reverse := by
    rw [← List.head?_reverse] at hf
    cases hr : front.reverse with
    | nil => exact ⟨rfl, rfl⟩
    | cons c r =>
      rw [hr] at hf
      obtain rfl : c = '/' := by simpa using hf
      exact ⟨rfl, rfl⟩
  have hname : ((Path.dropTrailing (front ++ (cs ++ ['.'])).reverse).takeWhile (· ≠ '/')).reverse =
      cs ++ ['.'] := by
    rw [dropTrailing_reverse hcs hs, ← List.cons_append, List.takeWhile_append_of_pos hne, hfront.1]
    simp
  have hrest : ((Path.dropTrailing (front ++ (cs ++ ['.'])).reverse).dropWhile (· ≠ '/')).reverse =
      front := by
    rw [dropTrailing_reverse hcs hs, ← List.cons_append, List.dropWhile_append_of_pos hne, hfront.2,
      List.reverse_reverse]
  rw [Path.cutAtStem, hname, hrest, splitExtension_append hcs List.not_mem_nil]
  by_cases hd : cs = ['.']
  · subst hd
    rw [if_pos rfl, if_pos (.inr (.inr rfl))]
    rfl
  · rw [if_neg hd]
    refine if_neg ?_
    rintro (h | h | h)
    · simp at h
    · have h' : cs ++ ['.'] = [] ++ ['.'] := h
      exact hcs (List.append_cancel_right h')
    · have h' : cs ++ ['.'] = ['.'] ++ ['.'] := h
      exact hd (List.append_cancel_right h')

/-- The stem of a class file's name is a step of a path. -/
theorem isStep_classStem (hf : IsName (stem ++ ".java")) (hs : stem ≠ "") :
    IsStep (classStem stem) := by
  rw [classStem]
  split
  · exact ⟨by decide, by decide, by decide⟩
  · next hd =>
    refine ⟨hs, hd, fun hm => hf.no_slash ?_⟩
    rw [String.toList_append]
    exact List.mem_append_left _ hm

/-- The path of a file without its extension. -/
theorem withoutExtension_intercalate (hd : ∀ s ∈ folders, IsName s) (hf : IsName (stem ++ ".java"))
    (hs : stem ≠ "") :
    Path.extension? ⟨"/".intercalate (folders ++ [stem ++ ".java"])⟩ = some "java" ∧
      Path.withoutExtension ⟨"/".intercalate (folders ++ [stem ++ ".java"])⟩ =
        ⟨"/".intercalate (folders ++ [classStem stem])⟩ := by
  obtain ⟨front, hfront, htext⟩ := exists_intercalate_append folders
  have hcs : stem.toList ≠ [] := fun he => hs (String.toList_inj.1 he)
  have hslash : '/' ∉ stem.toList := by
    intro hm
    exact hf.no_slash (by rw [String.toList_append]; exact List.mem_append_left _ hm)
  have hlast : (stem ++ ".java").toList = stem.toList ++ '.' :: "java".toList := by
    rw [String.toList_append]
    rfl
  have hnames : ∀ s ∈ folders ++ [stem ++ ".java"], IsName s := by
    simpa [or_imp, forall_and, hf] using hd
  have hname : Path.fileName? ⟨"/".intercalate (folders ++ [stem ++ ".java"])⟩ =
      some (stem ++ ".java") := by
    rw [Path.fileName?, Path.components_intercalate fun s hm => (hnames s hm).toIsStep,
      map_stepOf hnames]
    simp
  have hext : Path.extension? ⟨"/".intercalate (folders ++ [stem ++ ".java"])⟩ = some "java" := by
    rw [Path.extension?, hname, Option.bind_some, hlast, splitExtension_append hcs (by decide)]
    rfl
  refine ⟨hext, ?_⟩
  have htake : ("/".intercalate (folders ++ [stem ++ ".java"])).toList.take
      (("/".intercalate (folders ++ [stem ++ ".java"])).length - "java".length) =
        front ++ (stem.toList ++ ['.']) := by
    have he : front ++ (stem.toList ++ '.' :: "java".toList) =
        front ++ (stem.toList ++ ['.']) ++ "java".toList := by simp
    rw [← String.length_toList, htext, hlast, he]
    refine List.take_left' ?_
    simp only [List.length_append, String.length_toList, Nat.add_sub_cancel]
  rw [Path.withoutExtension, hext]
  simp only [htake, cutAtStem_append hfront hcs hslash, Path.mk.injEq]
  rw [← String.toList_inj, String.toList_ofList, htext, classStem]
  by_cases h : stem = "."
  · have hl : stem.toList = ['.'] := congrArg String.toList h
    rw [if_pos h, if_pos hl]
    rfl
  · have hl : stem.toList ≠ ['.'] := fun he => h (String.toList_inj.1 he)
    rw [if_neg h, if_neg hl]

/-- A file below its source folder is taken for the class that its folders and its stem spell. -/
theorem classAt?_intercalate (hd : ∀ s ∈ folders, IsName s) (hf : IsName (stem ++ ".java"))
    (hs : stem ≠ "") :
    classAt? ⟨"/".intercalate (folders ++ [stem ++ ".java"])⟩ =
      some (".".intercalate (folders ++ [classStem stem])) := by
  obtain ⟨hext, hpath⟩ := withoutExtension_intercalate hd hf hs
  have hsteps : ∀ s ∈ folders ++ [classStem stem], IsStep s := by
    intro s hm
    rcases List.mem_append.1 hm with hm | hm
    · exact (hd s hm).toIsStep
    · exact List.mem_singleton.1 hm ▸ isStep_classStem hf hs
  rw [classAt?, hext, hpath, Path.components_intercalate hsteps, List.map_map]
  have ht : (folders ++ [classStem stem]).map (Component.text ∘ stepOf) =
      folders ++ [classStem stem] :=
    (List.map_congr_left fun s _ => text_stepOf).trans (List.map_id _)
  rw [ht]
  exact if_pos rfl

end

end TestImpact.Java
