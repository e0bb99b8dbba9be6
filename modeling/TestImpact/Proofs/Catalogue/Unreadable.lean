import TestImpact.Catalogue.Scan
import TestImpact.Proofs.FileTree.Removal

/-!
# A scan without an unreadable file

A file that cannot be read is counted by a scan and left out. Main statement: once it is taken away,
a scan finds the same folders and reads the same records in the same order, so its catalogue is the
same, and it counts no more failures than before (`ofRoot_without`). The lists that are sorted on
the way are compared by their names: those of the folders are the same, and of the files in a folder
one may be missing.
-/

namespace TestImpact

open Java (ClassRecord SourceKind)

/-- The bytes are no text, or a text that is not read. -/
def IsUnreadable (bytes : List UInt8) : Prop :=
  Utf8.decode? bytes = none ∨ ∃ text, Utf8.decode? bytes = some text ∧
    ∃ path fqn kind e, ClassRecord.read text path fqn kind = .error e

section
variable {α β : Type} {bytes : List UInt8} {names place : List String} {f g : Items}
  {xs xs' ys ys' : List SourceFile}

/-- Whether a text is read does not depend on what it is known as. -/
theorem record?_of_isUnreadable {file : SourceFile} (h : IsUnreadable file.bytes) :
    file.record? = none := by
  rw [SourceFile.record?]
  rcases h with h | ⟨text, ht, path, fqn, kind, e, he⟩
  · rw [h, Option.bind_none]
  · rw [ht, Option.bind_some, ClassRecord.read]
    rw [ClassRecord.read] at he
    cases hr : Java.readParts text with
    | error reason => rfl
    | ok parts => rw [hr] at he; cases he

/-! ## Lists of the same names -/

/-- Lists with the same names in the same order are related if the entries of a name are. -/
theorem forall₂_of_map_eq {r : List String × α → List String × β → Prop}
    {xs : List (List String × α)} {ys : List (List String × β)}
    (h : xs.map (·.1) = ys.map (·.1)) (hr : ∀ a ∈ xs, ∀ b ∈ ys, a.1 = b.1 → r a b) :
    List.Forall₂ r xs ys := by
  induction xs generalizing ys with
  | nil =>
    rw [List.map_eq_nil_iff.1 h.symm]
    exact .nil
  | cons a xs ih =>
    cases ys with
    | nil => cases h
    | cons b ys =>
      obtain ⟨hab, h⟩ := List.cons.inj h
      refine .cons (hr a List.mem_cons_self b List.mem_cons_self hab) (ih h ?_)
      exact fun a ha b hb => hr a (List.mem_cons_of_mem _ ha) b (List.mem_cons_of_mem _ hb)

/-- Lists of the same names are sorted into the same order. -/
theorem map_sortByNames_congr {xs : List (List String × α)} {ys : List (List String × β)}
    (hx : (xs.map (·.1)).Nodup) (hy : (ys.map (·.1)).Nodup)
    (h : ∀ names, names ∈ xs.map (·.1) ↔ names ∈ ys.map (·.1)) :
    (sortByNames xs).map (·.1) = (sortByNames ys).map (·.1) := by
  have hsorted : ∀ {γ : Type} {zs : List (List String × γ)}, (zs.map (·.1)).Nodup →
      ((sortByNames zs).map (·.1)).Pairwise ComesBefore :=
    fun hz => List.pairwise_map.2 (pairwise_sortByNames hz)
  have hmem : ∀ {γ : Type} {zs : List (List String × γ)} (names : List String),
      names ∈ (sortByNames zs).map (·.1) ↔ names ∈ zs.map (·.1) := by
    intro γ zs names
    simp only [List.mem_map, mem_sortByNames]
  refine eq_of_pairwise_comesBefore (k := id) (hsorted hx) (hsorted hy) fun names => ?_
  rw [hmem, hmem, h]

/-! ## The files of a folder -/

/-- The files that are left, in their order. -/
theorem filesBelow_eraseAt {extension : String} (hn : f.WellNamed)
    (h : f.at? place = some (.file bytes)) :
    FileTree.filesBelow extension (f.eraseAt place) =
      (FileTree.filesBelow extension f).filter fun e => e.1 ≠ place := by
  have hd := hn.distinct
  have hd' := (hn.eraseAt place).distinct
  refine eq_of_pairwise_comesBefore (FileTree.pairwise_filesBelow hd')
    ((FileTree.pairwise_filesBelow hd).filter _) fun ⟨names, b⟩ => ?_
  rw [List.mem_filter, FileTree.mem_filesBelow hd, FileTree.mem_filesBelow hd',
    Items.at?_eraseAt_eq_file h, decide_eq_true_eq, and_right_comm]

/-- The files `ys` are those of `xs`, up to files that give no record. -/
structure LosesUnread (xs ys : List SourceFile) : Prop where
  sublist : ys.Sublist xs
  records_eq : ys.filterMap SourceFile.record? = xs.filterMap SourceFile.record?

/-- Lists one after another lose what each of them loses. -/
theorem LosesUnread.append (h : LosesUnread xs ys) (h' : LosesUnread xs' ys') :
    LosesUnread (xs ++ xs') (ys ++ ys') where
  sublist := h.sublist.append h'.sublist
  records_eq := by rw [List.filterMap_append, List.filterMap_append, h.records_eq, h'.records_eq]

/-- A folder that loses an unreadable file loses no record. -/
theorem filesOf_of_losesFile (hn : f.WellNamed) (hl : f.LosesFile bytes g)
    (hb : IsUnreadable bytes) (kind : SourceKind) (path : Path) :
    LosesUnread (Scan.filesOf kind path f) (Scan.filesOf kind path g) := by
  rcases hl with rfl | ⟨place, hat, rfl⟩
  · exact ⟨List.Sublist.refl _, rfl⟩
  · rw [Scan.filesOf, Scan.filesOf, filesBelow_eraseAt hn hat]
    refine ⟨List.filter_sublist.filterMap _, ?_⟩
    rw [List.filterMap_filterMap, List.filterMap_filterMap, List.filterMap_filter]
    refine List.filterMap_congr fun ⟨names, b⟩ hm => ?_
    by_cases hp : names = place
    · obtain ⟨hfile, -⟩ := (FileTree.mem_filesBelow hn.distinct).1 hm
      subst hp
      rw [hat] at hfile
      cases hfile
      have hno : ∀ c : Option String,
          (c.map fun fqn => (⟨path.descend names, fqn, kind, bytes⟩ : SourceFile)).bind
            SourceFile.record? = none := by
        intro c
        cases c with
        | none => rfl
        | some fqn => exact record?_of_isUnreadable hb
      simp [hno]
    · simp [hp]

end

namespace Scan

section
variable {t : FileTree} {root : Path} {place : List String} {bytes : List UInt8} {f g : Items}

/-! ## The folders that are found -/

/-- A folder, and what is left of it, at the end of the same names. -/
def SameFolder {α : Type} (bytes : List UInt8) (a b : α × Items) : Prop :=
  a.1 = b.1 ∧ a.2.WellNamed ∧ a.2.LosesFile bytes b.2

/-- In a folder, and in what is left of it, folders of the same names are found. -/
theorem sortByNames_matching_of_losesFile {accepts : List String → Bool} {pruned : List String}
    (hn : f.WellNamed) (hl : f.LosesFile bytes g) :
    List.Forall₂ (SameFolder bytes) (sortByNames (f.matching accepts pruned []))
      (sortByNames (g.matching accepts pruned [])) := by
  have hat : ∀ names inside, f.at? names = some (.folder inside) →
      ∃ inside', g.at? names = some (.folder inside') ∧ inside.LosesFile bytes inside' := by
    intro names inside hi
    rcases hl with rfl | ⟨place, hp, rfl⟩
    · exact ⟨inside, hi, .inl rfl⟩
    · exact Items.exists_folder_eraseAt hp hi
  have hback : ∀ names inside', g.at? names = some (.folder inside') →
      ∃ inside, f.at? names = some (.folder inside) := by
    intro names inside' hi
    rcases hl with rfl | ⟨place, hp, rfl⟩
    · exact ⟨inside', hi⟩
    · exact Items.exists_folder_of_eraseAt hp hi
  have hd := hn.distinct
  have hg := (hl.wellNamed hn).distinct
  have hmem : ∀ {e : Items}, e.DistinctNames → ∀ names,
      names ∈ (e.matching accepts pruned []).map (·.1) ↔
        (∃ inside, e.at? names = some (.folder inside)) ∧
          Items.IsFound accepts pruned [] names := by
    intro e he names
    simp only [List.mem_map, Prod.exists, exists_eq_right, Items.mem_matching_iff he,
      List.nil_append, exists_eq_left', exists_and_right]
  refine forall₂_of_map_eq (map_sortByNames_congr (Items.nodup_matching hd)
    (Items.nodup_matching hg) fun names => ?_) ?_
  · rw [hmem hd, hmem hg]
    refine and_congr_left fun _ =>
      ⟨fun ⟨inside, hi⟩ => ?_, fun ⟨inside, hi⟩ => hback names inside hi⟩
    obtain ⟨inside', hi', -⟩ := hat names inside hi
    exact ⟨inside', hi'⟩
  · rintro ⟨names, inside⟩ ha ⟨_, inside'⟩ hb rfl
    obtain ⟨_, rfl, hi, -⟩ := (Items.mem_matching_iff hd).1 (mem_sortByNames.1 ha)
    obtain ⟨more, he, hi', -⟩ := (Items.mem_matching_iff hg).1 (mem_sortByNames.1 hb)
    obtain rfl : names = more := he
    obtain ⟨found, hfound, hloses⟩ := hat _ inside hi
    obtain rfl : found = inside' := by
      rw [hi'] at hfound
      cases hfound
      rfl
    exact ⟨rfl, (hn.of_at? hi).2, hloses⟩

/-- The same folders are found, up to the file. -/
theorem matchingFolders_without (h : t.top.at? place = some (.file bytes)) (suffix : String)
    (pruned : List String) :
    List.Forall₂ (SameFolder bytes) (t.matchingFolders root suffix pruned)
      ((t.without place).matchingFolders root suffix pruned) := by
  rw [FileTree.matchingFolders, FileTree.matchingFolders]
  split
  · exact .nil
  cases hw : t.walkStart? root with
  | none =>
    rw [FileTree.walkStart?_without_eq_none h hw]
    exact .nil
  | some start =>
    obtain ⟨inside, counts⟩ := start
    obtain ⟨g, hg, hl⟩ := FileTree.exists_walkStart?_without h hw
    rw [hg]
    have hinside : inside.WellNamed := FileTree.wellNamed_of_walkStart? hw
    simp only
    split
    · exact .cons ⟨rfl, hinside, hl⟩ .nil
    · exact sortByNames_matching_of_losesFile hinside hl

/-- The same source folders are found, up to the file. -/
theorem foldersOf_without (h : t.top.at? place = some (.file bytes)) (root : Path)
    (config : Config) (kind : SourceKind) :
    List.Forall₂ (SameFolder bytes) (foldersOf t root config kind)
      (foldersOf (t.without place) root config kind) := by
  have hfolders : ∀ suffixes : List String, List.Forall₂ (SameFolder bytes)
      (suffixes.flatMap fun suffix => (t.matchingFolders root suffix config.prunedDirs).map
        fun (names, inside) => (root.descend names, inside))
      (suffixes.flatMap fun suffix => ((t.without place).matchingFolders root suffix
        config.prunedDirs).map fun (names, inside) => (root.descend names, inside)) := by
    intro suffixes
    induction suffixes with
    | nil => exact .nil
    | cons suffix suffixes ih =>
      rw [List.flatMap_cons, List.flatMap_cons]
      refine List.rel_append ?_ ih
      rw [List.forall₂_map_left_iff, List.forall₂_map_right_iff]
      refine (matchingFolders_without h suffix config.prunedDirs).imp ?_
      rintro ⟨names, inside⟩ ⟨_, inside'⟩ ⟨rfl, hi, hl⟩
      exact ⟨rfl, hi, hl⟩
  cases kind
  · exact hfolders config.sourceDirs
  · exact hfolders config.testDirs

/-- Of the source files the unreadable one may be missing. -/
theorem sourceFiles_without (h : t.top.at? place = some (.file bytes))
    (hb : IsUnreadable bytes) (root : Path) (config : Config) (kind : SourceKind) :
    LosesUnread (sourceFiles t root config kind)
      (sourceFiles (t.without place) root config kind) := by
  rw [sourceFiles, sourceFiles]
  have hfolders := foldersOf_without h root config kind
  generalize foldersOf t root config kind = as at hfolders
  generalize foldersOf (t.without place) root config kind = bs at hfolders
  induction hfolders with
  | nil => exact ⟨List.Sublist.refl _, rfl⟩
  | @cons a b as bs hab _ ih =>
    obtain ⟨path, inside⟩ := a
    obtain ⟨_, inside'⟩ := b
    obtain ⟨rfl, hi, hl⟩ := hab
    exact (filesOf_of_losesFile hi hl hb kind path).append ih

/-! ## The scan -/

/-- Two scans find the same, but the second one may count fewer failures. -/
structure SameBesideFailures (s s' : Scan) : Prop where
  catalogue_eq : s'.catalogue = s.catalogue
  sourceRoots_eq : s'.sourceRoots = s.sourceRoots
  testRoots_eq : s'.testRoots = s.testRoots
  filesParsed_eq : s'.filesParsed = s.filesParsed
  parseFailures_le : s'.parseFailures ≤ s.parseFailures

/-- Without an unreadable file a scan finds the same. -/
theorem ofRoot_without (h : t.top.at? place = some (.file bytes)) (hb : IsUnreadable bytes)
    (root : Path) (config : Config) :
    (ofRoot t root config).SameBesideFailures (ofRoot (t.without place) root config) := by
  have hfiles := (sourceFiles_without h hb root config .production).append
    (sourceFiles_without h hb root config .test)
  refine ⟨?_, ?_, ?_, ?_, ?_⟩
  · exact congrArg Catalogue.ofRecords hfiles.records_eq
  · exact (foldersOf_without h root config _).length_eq.symm
  · exact (foldersOf_without h root config _).length_eq.symm
  · exact congrArg List.length hfiles.records_eq
  · rw [ofRoot, ofRoot, hfiles.records_eq]
    exact Nat.sub_le_sub_right hfiles.sublist.length_le _

end

end Scan

end TestImpact
