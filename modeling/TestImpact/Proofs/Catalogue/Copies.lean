import TestImpact.Proofs.Analysis.Monotone
import TestImpact.Proofs.Catalogue.Records
import TestImpact.Proofs.FileTree.PathOrder
import TestImpact.Proofs.SourceFiles

/-!
# Files of one class

Under one search root several files may give a class. For each configured folder they are read in
the order of their paths (`pairwise_filesAt`), but the configured folders themselves are taken in
the order of the configuration. Main statement: the record of a class is that of its first file in
path order for the first configured folder that has one, and this is the first of all of them unless
a folder configured behind has one in front of it (`ofRoot_isKept`).
-/

namespace TestImpact

open Analysis (projectOf walkStart?_projectOf)
open Java (ClassRecord SourceKind)

namespace Scan

/-- The source files of a kind that are found for one configured folder. -/
def filesAt (t : FileTree) (root : Path) (config : Config) (kind : SourceKind) (dir : String) :
    List SourceFile :=
  (t.matchingFolders root dir config.prunedDirs).flatMap fun (names, inside) =>
    filesOf kind (root.descend names) inside

/-- The record of the file `f` is the one that counts for a class: in front of the configured folder
`dir` stand only folders without a file of the class, and no file of the class that is found for
`dir` comes before `f`. -/
structure IsKept (t : FileTree) (root : Path) (config : Config) (kind : SourceKind) (fqn : String)
    (before : List String) (dir : String) (after : List String) (f : SourceFile) : Prop where
  dirs_eq : config.dirsOf kind = before ++ dir :: after
  none_before : ∀ d ∈ before, ∀ g ∈ filesAt t root config kind d, ¬IsCopy fqn g
  mem : f ∈ filesAt t root config kind dir
  isCopy : IsCopy fqn f
  first : ∀ g ∈ filesAt t root config kind dir, IsCopy fqn g → g = f ∨ f.path.Precedes g.path

section
variable {t : FileTree} {root path : Path} {config : Config} {kind : SourceKind} {fqn dir : String}
  {before after : List String} {f g : SourceFile} {inside : Items} {r : ClassRecord}

/-! ## The files of a configured folder -/

/-- The source files are those of one configured folder after another. -/
theorem sourceFiles_eq :
    sourceFiles t root config kind = (config.dirsOf kind).flatMap (filesAt t root config kind) := by
  cases kind <;> simp only [sourceFiles, foldersOf, List.flatMap_assoc, List.flatMap_map] <;> rfl

/-- A file of a source folder is where its names lead to. -/
theorem exists_of_mem_filesOf (hd : inside.WellNamed) (h : f ∈ filesOf kind path inside) :
    ∃ names, f.path = path.descend names ∧ ∀ s ∈ names, IsName s := by
  obtain ⟨⟨names, bytes⟩, hm, hf⟩ := List.mem_filterMap.1 h
  obtain ⟨fqn, -, rfl⟩ := Option.map_eq_some_iff.1 hf
  obtain ⟨hat, -⟩ := (FileTree.mem_filesBelow hd.distinct).1 hm
  exact ⟨names, rfl, (hd.of_at? hat).1⟩

/-- The files of a source folder stand in the order of their paths. -/
theorem pairwise_filesOf (hd : inside.WellNamed) :
    (filesOf kind path inside).Pairwise fun f g => f.path.Precedes g.path := by
  refine List.pairwise_filterMap.2 ((FileTree.pairwise_filesBelow hd.distinct).imp_of_mem ?_)
  rintro ⟨names, bytes⟩ ⟨more, bytes'⟩ ha hb hab f hf g hg
  obtain ⟨_, -, rfl⟩ := Option.map_eq_some_iff.1 hf
  obtain ⟨_, -, rfl⟩ := Option.map_eq_some_iff.1 hg
  exact Path.precedes_descend (hd.of_at? ((FileTree.mem_filesBelow hd.distinct).1 ha).1).1
    (hd.of_at? ((FileTree.mem_filesBelow hd.distinct).1 hb).1).1 hab

/-- The files that are found for one configured folder stand in the order of their paths. -/
theorem pairwise_filesAt :
    (filesAt t root config kind dir).Pairwise fun f g => f.path.Precedes g.path := by
  have hfolder : ∀ e ∈ t.matchingFolders root dir config.prunedDirs,
      e.2.WellNamed ∧ ∀ s ∈ e.1, IsName s := by
    rintro ⟨names, inside⟩ he
    obtain ⟨start, counts, hw, hat⟩ := FileTree.at?_of_mem_matchingFolders he
    exact ((FileTree.wellNamed_of_walkStart? hw).of_at? hat).symm
  refine List.pairwise_flatMap.2 ⟨fun e he => pairwise_filesOf (hfolder e he).1, ?_⟩
  refine FileTree.pairwise_matchingFolders.imp_of_mem ?_
  rintro ⟨a, inside⟩ ⟨b, inside'⟩ ha hb ⟨hab, hp⟩ f hf g hg
  obtain ⟨hinside, hnames⟩ := hfolder _ ha
  obtain ⟨hinside', hnames'⟩ := hfolder _ hb
  obtain ⟨x, hx, hnx⟩ := exists_of_mem_filesOf hinside hf
  obtain ⟨y, hy, hny⟩ := exists_of_mem_filesOf hinside' hg
  rw [hx, hy, ← descend_append, ← descend_append]
  exact Path.precedes_descend (List.forall_mem_append.2 ⟨hnames, hnx⟩)
    (List.forall_mem_append.2 ⟨hnames', hny⟩) (hab.append hp x y)

/-! ## The file that counts -/

/-- The first file that gives the class comes before the others. -/
theorem first_of_find?
    (h : (filesAt t root config kind dir).find? (fun f => IsCopy fqn f) = some f) :
    ∀ g ∈ filesAt t root config kind dir, IsCopy fqn g → g = f ∨ f.path.Precedes g.path := by
  obtain ⟨-, front, back, he, hfront⟩ := List.find?_eq_some_iff_append.1 h
  have hpairs : (filesAt t root config kind dir).Pairwise _ := pairwise_filesAt
  rw [he] at hpairs ⊢
  intro g hg hcopy
  rcases List.mem_append.1 hg with hg | hg
  · have hno := hfront g hg
    rw [decide_eq_true hcopy] at hno
    cases hno
  · rcases List.mem_cons.1 hg with rfl | hg
    · exact .inl rfl
    · exact .inr ((List.pairwise_cons.1 (List.pairwise_append.1 hpairs).2.1).1 g hg)

/-- The file that is kept is the first copy among those of its configured folder. -/
theorem IsKept.find?_eq
    (h : IsKept t root config kind fqn before dir after f) :
    (filesAt t root config kind dir).find? (fun f => IsCopy fqn f) = some f := by
  cases hf : (filesAt t root config kind dir).find? (fun f => IsCopy fqn f) with
  | none => exact absurd (decide_eq_true h.isCopy) (List.find?_eq_none.1 hf f h.mem)
  | some g =>
    obtain ⟨hmem, hcopy⟩ := mem_and_isCopy_of_find? hf
    rcases h.first g hmem hcopy with rfl | hfg
    · rfl
    · rcases first_of_find? hf f h.mem h.isCopy with rfl | hgf
      · rfl
      · exact absurd hfg hgf.asymm

/-- The first copy of a class among all files is the one that is kept. -/
theorem find?_sourceFiles_iff :
    (sourceFiles t root config kind).find? (fun f => IsCopy fqn f) = some f ↔
      ∃ before dir after, IsKept t root config kind fqn before dir after f := by
  rw [sourceFiles_eq, List.find?_flatMap, List.findSome?_eq_some_iff]
  refine ⟨?_, ?_⟩
  · rintro ⟨before, dir, after, he, hf, hbefore⟩
    obtain ⟨hmem, hcopy⟩ := mem_and_isCopy_of_find? hf
    refine ⟨before, dir, after, he, fun d hd g hg => ?_, hmem, hcopy, first_of_find? hf⟩
    simpa using List.find?_eq_none.1 (hbefore d hd) g hg
  · rintro ⟨before, dir, after, h⟩
    refine ⟨before, dir, after, h.dirs_eq, h.find?_eq, fun d hd => ?_⟩
    exact List.find?_eq_none.2 fun g hg hcopy => h.none_before d hd g hg (of_decide_eq_true hcopy)

/-- The file that counts is the first of all files of the class, unless a folder configured behind
its own one has a file of the class in front of it. -/
theorem IsKept.first_iff (h : IsKept t root config kind fqn before dir after f) :
    (∀ g ∈ sourceFiles t root config kind, IsCopy fqn g → ¬g.path.Precedes f.path) ↔
      ∀ d ∈ after, ∀ g ∈ filesAt t root config kind d, IsCopy fqn g → ¬g.path.Precedes f.path := by
  rw [sourceFiles_eq, h.dirs_eq]
  simp only [List.mem_flatMap]
  refine ⟨fun hall d hd g hg => hall g ⟨d, by simp [hd], hg⟩, ?_⟩
  rintro hafter g ⟨d, hm, hg⟩ hcopy
  rcases List.mem_append.1 hm with hm | hm
  · exact absurd hcopy (h.none_before d hm g hg)
  rcases List.mem_cons.1 hm with rfl | hm
  · rcases h.first g hg hcopy with rfl | hlt
    · exact fun hself => hself.asymm hself
    · exact hlt.asymm
  · exact hafter d hm g hg hcopy

/-- The record of a class is that of the file that counts, and there is none just if no file gives
the class. The file that counts is the first of all files of the class exactly if no folder
configured behind its own one has a file of the class in front of it; so it is if one folder is
configured. -/
theorem ofRoot_isKept (t : FileTree) (root : Path) (config : Config) (kind : SourceKind)
    (fqn : String) :
    (((ofRoot t root config).catalogue.of kind).find? fqn = none ↔
      ∀ g ∈ sourceFiles t root config kind, ¬IsCopy fqn g) ∧
    (∀ r, ((ofRoot t root config).catalogue.of kind).find? fqn = some r ↔
      ∃ before dir after f, IsKept t root config kind fqn before dir after f ∧ f.record? = some r) ∧
    ∀ before dir after f, IsKept t root config kind fqn before dir after f →
      ((∀ g ∈ sourceFiles t root config kind, IsCopy fqn g → ¬g.path.Precedes f.path) ↔
        ∀ d ∈ after, ∀ g ∈ filesAt t root config kind d, IsCopy fqn g →
          ¬g.path.Precedes f.path) := by
  refine ⟨find?_ofRoot_eq_none_iff, fun r => ?_, fun before dir after f h => h.first_iff⟩
  rw [find?_ofRoot, Option.bind_eq_some_iff]
  refine ⟨?_, ?_⟩
  · rintro ⟨f, hf, hr⟩
    obtain ⟨before, dir, after, h⟩ := find?_sourceFiles_iff.1 hf
    exact ⟨before, dir, after, f, h, hr⟩
  · rintro ⟨before, dir, after, f, h, hr⟩
    exact ⟨f, find?_sourceFiles_iff.2 ⟨before, dir, after, h⟩, hr⟩

end

end Scan

/-! ## A class with two files -/

/-- A folder with two files for the class `A`. -/
def twoCopies : Folder where
  items := .folder "b" (.folder "main" (.file "A.java" "class A { }".toUTF8.toList .empty) .empty)
    (.folder "a" (.folder "main" (.file "A.java" "class A { }".toUTF8.toList .empty) .empty) .empty)

/-- A configuration with a folder for each of the files, the second one in path order first. -/
def crossedConfig : Config :=
  { sourceDirs := ["b/main", "a/main"], testDirs := [], excludePaths := [] }

namespace Scan

/-- Of the two copies of the example, the one in the folder configured first is kept. -/
theorem path_find?_twoCopies :
    (((ofRoot (projectOf twoCopies) ⟨"/p"⟩ crossedConfig).catalogue.of .production).find? "A").map
      (·.path) = some ⟨"/p/b/main/A.java"⟩ := by
  simp only [ofRoot, sourceFiles, foldersOf, FileTree.matchingFolders, walkStart?_projectOf]
  decide +kernel

/-- The other copy has the earlier path. -/
theorem exists_copy_twoCopies :
    ∃ g ∈ sourceFiles (projectOf twoCopies) ⟨"/p"⟩ crossedConfig .production,
      IsCopy "A" g ∧ g.path.Precedes ⟨"/p/b/main/A.java"⟩ := by
  simp only [sourceFiles, foldersOf, FileTree.matchingFolders, walkStart?_projectOf]
  decide +kernel

/-- The file counts that is found for the folder configured first, and a folder configured behind it
has one that comes before. -/
theorem ofRoot_isKept_twoCopies :
    ∃ before dir after f,
      IsKept (projectOf twoCopies) ⟨"/p"⟩ crossedConfig .production "A" before dir after f ∧
        f.path = ⟨"/p/b/main/A.java"⟩ ∧
        ∃ d ∈ after, ∃ g ∈ filesAt (projectOf twoCopies) ⟨"/p"⟩ crossedConfig .production d,
          IsCopy "A" g ∧ g.path.Precedes f.path := by
  obtain ⟨r, hr, hpath⟩ := Option.map_eq_some_iff.1 path_find?_twoCopies
  obtain ⟨-, hkept, hfirst⟩ :=
    ofRoot_isKept (projectOf twoCopies) ⟨"/p"⟩ crossedConfig .production "A"
  obtain ⟨before, dir, after, f, h, hrecord⟩ := (hkept r).1 hr
  obtain ⟨-, -, hp⟩ := SourceFile.of_record? hrecord
  rw [hpath] at hp
  refine ⟨before, dir, after, f, h, hp.symm, ?_⟩
  by_contra hno
  obtain ⟨g, hg, hcopy, hbefore⟩ := exists_copy_twoCopies
  refine (hfirst before dir after f h).2 (fun d hm g hg hcopy hlt => ?_) g hg hcopy (hp ▸ hbefore)
  exact hno ⟨d, hm, g, hg, hcopy, hlt⟩

/-- Of the files of a class it is not always the first one in path order that counts. -/
theorem exists_copy_precedes :
    ∃ r, ((ofRoot (projectOf twoCopies) ⟨"/p"⟩ crossedConfig).catalogue.of .production).find? "A" =
        some r ∧
      ∃ g ∈ sourceFiles (projectOf twoCopies) ⟨"/p"⟩ crossedConfig .production,
        IsCopy "A" g ∧ g.path.Precedes r.path := by
  obtain ⟨r, hr, hpath⟩ := Option.map_eq_some_iff.1 path_find?_twoCopies
  exact ⟨r, hr, hpath ▸ exists_copy_twoCopies⟩

end Scan

end TestImpact
