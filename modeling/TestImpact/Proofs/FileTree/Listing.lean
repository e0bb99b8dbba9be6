import Mathlib.Data.List.Sort
import TestImpact.Proofs.FileTree.Walk

/-!
# What walks list

Where each name in a folder is the name of one item, the walks list exactly the items that names
lead to: all files (`mem_files_iff`), and the folders that are accepted (`mem_matching_iff`). Each
of them is listed once, so the sorted lists stand in the strict order of the names
(`pairwise_sortByNames`) and are known by their members (`eq_of_pairwise_comesBefore`).
-/

namespace TestImpact

namespace Items

section
variable {f g rest : Items} {name other : String} {names more front start : List String}
  {bytes : List UInt8} {item found : Item} {accepts : List String → Bool} {pruned : List String}

/-! ## The first item of a folder -/

/-- Behind a name that is missing there is nothing. -/
theorem at?_eq_none (h : f.find? name = none) : f.at? (name :: names) = none := by
  simp [at?, h]

/-- What names lead to behind the first item of a folder is what they lead to in the folder. -/
theorem at?_behind (item : Item) (hn : rest.find? name = none) (hm : more ≠ [])
    (h : rest.at? more = some found) : (rest.cons name item).at? more = some found := by
  cases more with
  | nil => exact absurd rfl hm
  | cons m more =>
    have hne : name ≠ m := by
      rintro rfl
      rw [at?_eq_none hn] at h
      cases h
    have hf : ∀ i, rest.find? m = some i → (rest.cons name item).find? m = some i := by
      intro i hi
      rwa [find?_cons, if_neg hne]
    by_cases hs : more = []
    · subst hs
      rw [at?_singleton] at h ⊢
      exact hf found h
    · obtain ⟨inside, hi, hat⟩ := (at?_cons hs).1 h
      exact (at?_cons hs).2 ⟨inside, hf _ hi, hat⟩

/-- The item that a folder holds first is found by its name. -/
theorem at?_front (item : Item) : (rest.cons name item).at? [name] = some item := by
  rw [at?_singleton, find?_cons, if_pos rfl]

/-- Further names lead on inside the folder that comes first. -/
theorem at?_inside (hm : more ≠ []) (h : g.at? more = some found) :
    (folder name g rest).at? (name :: more) = some found :=
  (at?_cons hm).2 ⟨g, if_pos rfl, h⟩

/-- A folder itself is no file. -/
theorem ne_nil_of_at?_file (h : f.at? names = some (.file bytes)) : names ≠ [] := by
  rintro rfl
  cases h

/-! ## Files -/

/-- The files that are listed are those that names lead to. -/
theorem mem_files_iff (hd : f.DistinctNames) :
    (names, bytes) ∈ f.files front ↔
      ∃ more, names = front ++ more ∧ f.at? more = some (.file bytes) := by
  refine ⟨fun h => ?_, ?_⟩
  · induction f generalizing front with
    | empty => cases h
    | file n b rest ih =>
      rcases List.mem_cons.1 h with he | h
      · cases he
        exact ⟨[n], rfl, at?_front (.file bytes)⟩
      · obtain ⟨more, rfl, hat⟩ := ih hd.2 h
        exact ⟨more, rfl, at?_behind (.file b) hd.1 (ne_nil_of_at?_file hat) hat⟩
    | link n target rest ih =>
      obtain ⟨more, rfl, hat⟩ := ih hd.2 h
      exact ⟨more, rfl, at?_behind (.link target) hd.1 (ne_nil_of_at?_file hat) hat⟩
    | folder n inside rest ihi ih =>
      rcases List.mem_append.1 h with h | h
      · obtain ⟨more, rfl, hat⟩ := ihi hd.1 h
        exact ⟨n :: more, by simp, at?_inside (ne_nil_of_at?_file hat) hat⟩
      · obtain ⟨more, rfl, hat⟩ := ih hd.2.2 h
        exact ⟨more, rfl, at?_behind (.folder inside) hd.2.1 (ne_nil_of_at?_file hat) hat⟩
  · rintro ⟨more, rfl, hat⟩
    exact mem_files (ne_nil_of_at?_file hat) hat

/-- No file behind the first item of a folder is listed under its name. -/
theorem files_apart (hd : rest.DistinctNames) (hn : rest.find? name = none) :
    front ++ name :: more ∉ (rest.files front).map (·.1) := by
  intro hm
  obtain ⟨⟨_, bytes⟩, hm, rfl⟩ := List.mem_map.1 hm
  obtain ⟨names, he, hat⟩ := (mem_files_iff hd).1 hm
  rw [← List.append_cancel_left he, at?_eq_none hn] at hat
  cases hat

/-- No file is listed twice. -/
theorem nodup_files (hd : f.DistinctNames) : ((f.files front).map (·.1)).Nodup := by
  induction f generalizing front with
  | empty => exact List.nodup_nil
  | file n bytes rest ih => exact List.nodup_cons.2 ⟨files_apart hd.2 hd.1, ih hd.2⟩
  | link n target rest ih => exact ih hd.2
  | folder n inside rest ihi ih =>
    rw [files, List.map_append]
    refine List.nodup_append.2 ⟨ihi hd.1, ih hd.2.2, ?_⟩
    rintro key hi _ hr rfl
    obtain ⟨⟨names, bytes⟩, hfile, rfl⟩ := List.mem_map.1 hi
    obtain ⟨more, rfl, -⟩ := (mem_files_iff hd.1).1 hfile
    rw [List.append_assoc] at hr
    exact files_apart hd.2.2 hd.2.1 hr

/-! ## Folders -/

/-- The names lead to a folder that a walk finds: it is accepted, no folder on the way is, and none
of the names is pruned. -/
structure IsFound (accepts : List String → Bool) (pruned front more : List String) : Prop where
  ne_nil : more ≠ []
  entered : ∀ name ∈ more, name ∉ pruned
  accepted : accepts (front ++ more) = true
  first : ∀ start rest, more = start ++ rest → start ≠ [] → rest ≠ [] →
    accepts (front ++ start) = false

/-- What is found inside a folder that is entered and not accepted is found with its name in
front. -/
theorem IsFound.cons (hn : name ∉ pruned) (hno : accepts (front ++ [name]) = false)
    (h : IsFound accepts pruned (front ++ [name]) more) :
    IsFound accepts pruned front (name :: more) where
  ne_nil := List.cons_ne_nil _ _
  entered := List.forall_mem_cons.2 ⟨hn, h.entered⟩
  accepted := by simpa using h.accepted
  first := by
    intro start rest he hs hr
    cases start with
    | nil => exact absurd rfl hs
    | cons s start =>
      obtain ⟨rfl, htail⟩ := List.cons.inj he
      by_cases hstart : start = []
      · rw [hstart]
        exact hno
      · simpa using h.first start rest htail hstart hr

/-- The folders that are found are those that names lead to, if a walk finds them. -/
theorem mem_matching_iff (hd : f.DistinctNames) :
    (names, g) ∈ f.matching accepts pruned front ↔
      ∃ more, names = front ++ more ∧ f.at? more = some (.folder g) ∧
        IsFound accepts pruned front more := by
  refine ⟨fun h => ?_, ?_⟩
  · induction f generalizing front with
    | empty => cases h
    | file n b rest ih =>
      obtain ⟨more, rfl, hat, hf⟩ := ih hd.2 h
      exact ⟨more, rfl, at?_behind (.file b) hd.1 hf.ne_nil hat, hf⟩
    | link n target rest ih =>
      obtain ⟨more, rfl, hat, hf⟩ := ih hd.2 h
      exact ⟨more, rfl, at?_behind (.link target) hd.1 hf.ne_nil hat, hf⟩
    | folder n inside rest ihi ih =>
      rcases List.mem_append.1 h with h | h
      · split at h
        · cases h
        next hp =>
          have hn : n ∉ pruned := by simpa using hp
          split at h
          · next ha =>
            cases List.mem_singleton.1 h
            refine ⟨[n], rfl, at?_front (.folder _), List.cons_ne_nil _ _,
              List.forall_mem_singleton.2 hn, ha, fun start rest he hs hr => ?_⟩
            have hlen := congrArg List.length he
            have hspos := List.length_pos_iff.2 hs
            have hrpos := List.length_pos_iff.2 hr
            simp only [List.length_singleton, List.length_append] at hlen
            omega
          · next ha =>
            obtain ⟨more, rfl, hat, hf⟩ := ihi hd.1 h
            exact ⟨n :: more, by simp, at?_inside hf.ne_nil hat,
              hf.cons hn (Bool.not_eq_true _ ▸ ha)⟩
      · obtain ⟨more, rfl, hat, hf⟩ := ih hd.2.2 h
        exact ⟨more, rfl, at?_behind (.folder inside) hd.2.1 hf.ne_nil hat, hf⟩
  · rintro ⟨more, rfl, hat, hf⟩
    exact mem_matching hf.ne_nil hat hf.entered hf.accepted hf.first

/-- Folders found elsewhere do not stand under a name that a folder lacks. -/
theorem matching_apart (hd : rest.DistinctNames) (hn : rest.find? name = none) :
    front ++ name :: more ∉ (rest.matching accepts pruned front).map (·.1) := by
  intro hm
  obtain ⟨⟨_, g⟩, hm, rfl⟩ := List.mem_map.1 hm
  obtain ⟨names, he, hat, -⟩ := (mem_matching_iff hd).1 hm
  rw [← List.append_cancel_left he, at?_eq_none hn] at hat
  cases hat

/-- No folder is found twice. -/
theorem nodup_matching (hd : f.DistinctNames) :
    ((f.matching accepts pruned front).map (·.1)).Nodup := by
  induction f generalizing front with
  | empty => exact List.nodup_nil
  | file n bytes rest ih | link n target rest ih => exact ih hd.2
  | folder n inside rest ihi ih =>
    rw [matching, List.map_append]
    refine List.nodup_append.2 ⟨?_, ih hd.2.2, ?_⟩
    · split
      · exact List.nodup_nil
      · split
        · exact List.nodup_singleton _
        · exact ihi hd.1
    · rintro key hi _ hr rfl
      obtain ⟨⟨names, g⟩, hfolder, rfl⟩ := List.mem_map.1 hi
      have hinside : ∃ more, names = front ++ n :: more := by
        split at hfolder
        · cases hfolder
        · split at hfolder
          · cases List.mem_singleton.1 hfolder
            exact ⟨[], rfl⟩
          · obtain ⟨more, rfl, -⟩ := (mem_matching_iff hd.1).1 hfolder
            exact ⟨more, List.append_assoc ..⟩
      obtain ⟨more, rfl⟩ := hinside
      exact matching_apart hd.2.2 hd.2.1 hr

end

end Items

/-! ## Sorted lists -/

/-- The names `a` come before the names `b`, compared from the first one on. -/
def ComesBefore (a b : List String) : Prop := (a.lex b fun x y => decide (x < y)) = true

section
variable {α : Type} {xs : List (List String × α)} {a b c : List String}

/-- Names are compared as lists of texts are. -/
theorem comesBefore_iff : ComesBefore a b ↔ @LT.lt (List String) List.instLT a b :=
  List.lex_eq_true_iff_lt

/-- No list of names comes before itself. -/
theorem not_comesBefore_self (a : List String) : ¬ComesBefore a a :=
  fun h => List.lt_irrefl a (comesBefore_iff.1 h)

/-- What comes before the earlier one comes before the later one. -/
theorem ComesBefore.trans (hab : ComesBefore a b) (hbc : ComesBefore b c) : ComesBefore a c :=
  comesBefore_iff.2 (List.lt_trans (comesBefore_iff.1 hab) (comesBefore_iff.1 hbc))

/-- Of two lists of names that differ one comes before the other one. -/
theorem comesBefore_of_ne (hba : ¬ComesBefore b a) (hne : a ≠ b) : ComesBefore a b := by
  by_contra hab
  rw [comesBefore_iff, List.not_lt] at hab hba
  exact hne (List.le_antisymm hba hab)

/-- A list without a repeated name is sorted into the strict order of the names. -/
theorem pairwise_sortByNames (hn : (xs.map (·.1)).Nodup) :
    (sortByNames xs).Pairwise fun a b => ComesBefore a.1 b.1 := by
  have hle : ∀ a b : List String × α,
      (!b.1.lex a.1 fun x y => decide (x < y)) = true ↔ ¬ComesBefore b.1 a.1 := by
    intro a b
    rw [Bool.not_eq_true', ← Bool.not_eq_true, ComesBefore]
  have hsorted : (sortByNames xs).Pairwise fun a b => ¬ComesBefore b.1 a.1 := by
    refine (List.pairwise_mergeSort (fun a b c hab hbc => ?_) (fun a b => ?_) xs).imp (hle _ _).1
    · rw [hle] at hab hbc ⊢
      intro hca
      by_cases hne : a.1 = b.1
      · exact hbc (hne ▸ hca)
      · exact hbc (hca.trans (comesBefore_of_ne hab hne))
    · rw [Bool.or_eq_true, hle, hle, ← not_and_or]
      exact fun h => not_comesBefore_self _ (h.1.trans h.2)
  have hdistinct : (sortByNames xs).Pairwise fun a b => a.1 ≠ b.1 :=
    List.pairwise_map.1 (((List.mergeSort_perm xs _).map _).nodup_iff.2 hn)
  exact (hsorted.and hdistinct).imp fun ⟨hba, hne⟩ => comesBefore_of_ne hba hne

/-- Lists in the strict order of some names of theirs, with the same members, are equal. -/
theorem eq_of_pairwise_comesBefore {as bs : List α} {k : α → List String}
    (ha : as.Pairwise fun a b => ComesBefore (k a) (k b))
    (hb : bs.Pairwise fun a b => ComesBefore (k a) (k b)) (h : ∀ e, e ∈ as ↔ e ∈ bs) :
    as = bs := by
  have : Std.Irrefl fun a b => ComesBefore (k a) (k b) := ⟨fun a => not_comesBefore_self (k a)⟩
  have : Std.Antisymm fun a b => ComesBefore (k a) (k b) :=
    ⟨fun a b hab hba => absurd (hab.trans hba) (not_comesBefore_self (k a))⟩
  exact ha.eq_of_mem_iff hb h

namespace FileTree

variable {f : Items} {extension : String} {names : List String} {bytes : List UInt8}

/-- The files of an extension below a folder. -/
theorem mem_filesBelow (hd : f.DistinctNames) :
    (names, bytes) ∈ filesBelow extension f ↔
      f.at? names = some (.file bytes) ∧
        Path.extension? ⟨"/".intercalate names⟩ = some extension := by
  rw [filesBelow, mem_sortByNames, List.mem_filter, Items.mem_files_iff hd, decide_eq_true_eq]
  simp

/-- The files below a folder are listed in order, each once. -/
theorem pairwise_filesBelow (hd : f.DistinctNames) :
    (filesBelow extension f).Pairwise fun a b => ComesBefore a.1 b.1 :=
  pairwise_sortByNames ((Items.nodup_files hd).sublist (List.filter_sublist.map _))

end FileTree

end

end TestImpact
