import TestImpact.Catalogue.Scan
import TestImpact.Proofs.FileTree.Place
import TestImpact.Proofs.Java.ClassFile

/-!
# Changed files and scanned files

The class of a changed file is read off its path, while a scan finds the class by a walk from the
search root; both look for the configured folders. Main statements: a changed path is cut at the
first place where the folder stands (`le_of_splitAtFolder?`), which is where the walk stops; and a
file that is mapped to a class is found by the scan as the same class, unless the folder starts with
a `.` (`mem_sourceFiles_of_classify`).
-/

namespace TestImpact

open Java (SourceKind)

/-- The configured folders of a kind. -/
def Config.dirsOf (c : Config) : SourceKind → List String
  | .production => c.sourceDirs
  | .test => c.testDirs

/-- A Java file that a walk through a folder reaches: names lead to it, of which none is pruned. -/
structure ReachedFile (inside : Items) (pruned : List String) where
  folders : List String
  stem : String
  bytes : List UInt8
  isName : ∀ s ∈ folders ++ [stem ++ ".java"], IsName s
  no_backslash : ∀ s ∈ folders ++ [stem ++ ".java"], '\\' ∉ s.toList
  stem_ne : stem ≠ ""
  at_eq : inside.at? (folders ++ [stem ++ ".java"]) = some (.file bytes)
  entered : ∀ s ∈ folders, s ∉ pruned

namespace ReachedFile
variable {inside : Items} {pruned : List String}

/-- The names that lead to the file. -/
def names (f : ReachedFile inside pruned) : List String := f.folders ++ [f.stem ++ ".java"]

/-- The path of the file as it is changed. -/
def text (f : ReachedFile inside pruned) : String := "/".intercalate f.names

/-- The class that the scan gives the file, for the one that the file is mapped to. -/
def foundClass (f : ReachedFile inside pruned) (fqn : String) : String :=
  if f.stem = "." then fqn ++ "." else fqn

/-- The file as a scan from `root` finds it. -/
def found (f : ReachedFile inside pruned) (root : Path) (kind : SourceKind) (fqn : String) :
    SourceFile where
  path := root.descend f.names
  fqn := f.foundClass fqn
  kind := kind
  bytes := f.bytes

end ReachedFile

section
variable {folder path before after start rest names : List String} {t : FileTree} {root : Path}
  {config : Config} {l : Layout} {inside : Items} {counts : Bool} {kind : SourceKind}
  {fqn s : String} {cs : List Component}

/-! ## The first place of a folder -/

/-- A path is cut at a folder that has segments, at the first place where it stands. -/
theorem le_of_splitAtFolder? (h : splitAtFolder? folder path = some (before, after)) :
    folder ≠ [] ∧ ∀ start rest, path = start ++ rest → folder <:+ start →
      (before ++ folder).length ≤ start.length := by
  induction path generalizing before after with
  | nil => cases h
  | cons s path ih =>
    rw [splitAtFolder?] at h
    split at h
    · next hc =>
      cases h
      exact ⟨hc.1, fun start rest _ hs => hs.length_le⟩
    · next hc =>
      obtain ⟨⟨b, a⟩, hb, he⟩ := Option.map_eq_some_iff.1 h
      cases he
      obtain ⟨hne, hle⟩ := ih hb
      refine ⟨hne, fun start rest hp hs => ?_⟩
      cases start with
      | nil => exact absurd (List.suffix_nil.1 hs) hne
      | cons s' start =>
        obtain ⟨rfl, hpath⟩ := List.cons.inj hp
        rcases List.suffix_cons_iff.1 hs with rfl | hs
        · refine absurd ⟨hne, ?_⟩ hc
          rw [hp]
          exact List.isPrefixOf_iff_prefix.2 (List.prefix_append _ _)
        · have := hle start rest hpath hs
          simp only [List.cons_append, List.length_cons]
          omega

/-- A list that shares nothing with the front of another one is a suffix of what is behind. -/
theorem suffix_of_disjoint {α : Type} {xs front back : List α} (h : xs <:+ front ++ back)
    (hd : ∀ x ∈ xs, x ∉ front) : xs <:+ back := by
  obtain ⟨more, he⟩ := h
  rcases List.append_eq_append_iff.1 he with ⟨mid, rfl, rfl⟩ | ⟨mid, rfl, rfl⟩
  · cases mid with
    | nil => exact List.suffix_refl _
    | cons x mid =>
      exact absurd (List.mem_append_right _ List.mem_cons_self) (hd x List.mem_cons_self)
  · exact List.suffix_append _ _

/-! ## What a scan finds -/

/-- A folder that shares no name with the root is looked for among the names behind it. -/
theorem isSuffixOf_names (hd : ∀ s ∈ folder, .name s ∉ cs) :
    (folder.map Component.name).isSuffixOf (cs ++ names.map .name) = true ↔ folder <:+ names := by
  have hinj : Function.Injective Component.name := fun _ _ => Component.name.inj
  have hdisjoint : ∀ c ∈ folder.map Component.name, c ∉ cs := by
    intro c hc
    obtain ⟨s, hs, rfl⟩ := List.mem_map.1 hc
    exact hd s hs
  rw [List.isSuffixOf_iff_suffix, ← List.suffix_map_iff_of_injective hinj]
  exact ⟨fun h => suffix_of_disjoint h hdisjoint, List.suffix_append_of_suffix⟩

/-- A folder is found in the place where names lead to it, if a configured folder stands at the end
of these names and nowhere before. -/
theorem mem_matchingFolders {g : Items} (hstart : t.walkStart? root = some (inside, counts))
    (hw : FileTree.suffixComponents s = folder.map .name)
    (hd : ∀ s ∈ folder, .name s ∉ root.components) (hne : folder ≠ []) (hn : names ≠ [])
    (hat : inside.at? names = some (.folder g)) (hp : ∀ name ∈ names, name ∉ config.prunedDirs)
    (hs : folder <:+ names)
    (hfirst : ∀ start rest, names = start ++ rest → rest ≠ [] → ¬folder <:+ start) :
    (names, g) ∈ t.matchingFolders root s config.prunedDirs := by
  have haccepts : ∀ names : List String,
      ((folder.map Component.name).isSuffixOf (root.components ++ names.map .name) = false) ↔
        ¬folder <:+ names := by
    intro names
    rw [← isSuffixOf_names hd, Bool.not_eq_true]
  have hempty : (folder.map Component.name).isEmpty = false := by simpa using hne
  have hroot : (folder.map Component.name).isSuffixOf (root.components ++ [].map .name) = false :=
    (haccepts []).2 fun h => hne (List.suffix_nil.1 h)
  rw [FileTree.matchingFolders, hw, hempty, hstart]
  simp only [hroot, Bool.and_false, Bool.false_eq_true, if_false]
  rw [mem_sortByNames]
  show ([] ++ names, g) ∈ inside.matching _ _ []
  refine Items.mem_matching hn hat hp ((isSuffixOf_names hd).2 hs) ?_
  intro start rest he _ hr
  exact (haccepts start).2 (hfirst start rest he hr)

/-- A file below a source folder that has been found. -/
theorem mem_filesOf {g : Items} {folders : List String} {stem : String} {bytes : List UInt8}
    (hd : ∀ s ∈ folders, IsName s) (hf : IsName (stem ++ ".java")) (hs : stem ≠ "")
    (hat : g.at? (folders ++ [stem ++ ".java"]) = some (.file bytes)) (p : Path) :
    { path := p.descend (folders ++ [stem ++ ".java"])
      fqn := ".".intercalate (folders ++ [Java.classStem stem])
      kind, bytes } ∈ Scan.filesOf kind p g := by
  have hext := (Java.withoutExtension_intercalate hd hf hs).1
  have hm : (folders ++ [stem ++ ".java"], bytes) ∈ FileTree.filesBelow Java.sourceExtension g := by
    rw [FileTree.filesBelow, mem_sortByNames, List.mem_filter]
    exact ⟨Items.mem_files (List.append_ne_nil_of_right_ne_nil _ (List.cons_ne_nil _ _)) hat,
      decide_eq_true hext⟩
  refine List.mem_filterMap.2 ⟨_, hm, ?_⟩
  show (Java.classAt? _).map _ = _
  rw [Java.classAt?_intercalate hd hf hs]
  rfl

/-- Going down in two parts is going down at once. -/
theorem descend_append (p : Path) : p.descend (start ++ rest) = (p.descend start).descend rest :=
  List.foldl_append

/-! ## The class of a changed file -/

/-- The class of a file has the folders below the configured one for its package. -/
theorem classBelow?_eq_some (h : Layout.classBelow? names = some fqn) :
    ∃ folders stem, names = folders ++ [stem ++ ".java"] ∧
      fqn = ".".intercalate (folders ++ [stem]) := by
  obtain ⟨last, hl, h⟩ := Option.bind_eq_some_iff.1 h
  obtain ⟨stem, hs, h⟩ := Option.bind_eq_some_iff.1 h
  cases h
  obtain ⟨front, rfl⟩ := List.getLast?_eq_some_iff.1 hl
  refine ⟨front, stem, ?_, ?_⟩
  · rw [dropEnd?_eq_some.1 hs]
  · rw [List.dropLast_concat]

/-- A mapped path has its class from one of the configured folders of its kind. -/
theorem exists_of_classify (hl : Layout.ofConfig config = .ok l)
    (hc : l.classify s = some (kind, fqn)) :
    ∃ dir ∈ config.dirsOf kind, ∃ before below,
      splitAtFolder? (segments dir) (segments s) = some (before, below) ∧
        Layout.classBelow? below = some fqn := by
  obtain ⟨⟨k, folder⟩, hm, h⟩ := List.exists_of_findSome?_eq_some hc
  obtain ⟨⟨before, below⟩, hs, h⟩ := Option.bind_eq_some_iff.1 h
  obtain ⟨fqn', hb, h⟩ := Option.bind_eq_some_iff.1 h
  cases h
  have hf : ∃ dir ∈ config.dirsOf kind, segments dir = folder := by
    rw [Layout.ofConfig] at hl
    cases he : config.excludes with
    | error e => rw [he] at hl; cases hl
    | ok excludes =>
      rw [he] at hl
      cases hl
      cases kind <;> simpa [Layout.folders, Config.dirsOf] using hm
  obtain ⟨dir, hd, rfl⟩ := hf
  exact ⟨dir, hd, before, below, hs, hb⟩

/-- What is added to the last name is added to the dotted name. -/
theorem intercalate_concat_append (folders : List String) (a b : String) :
    ".".intercalate (folders ++ [a ++ b]) = ".".intercalate (folders ++ [a]) ++ b := by
  by_cases hne : folders = []
  · simp [hne]
  · rw [String.intercalate_append_of_ne_nil hne (List.cons_ne_nil _ _),
      String.intercalate_append_of_ne_nil hne (List.cons_ne_nil _ _), String.intercalate_singleton,
      String.intercalate_singleton, ← String.append_assoc]

/-- The dotted name of a class file is that of its stem, but for a stem that is a dot. -/
theorem intercalate_classStem (folders : List String) (stem : String) :
    ".".intercalate (folders ++ [Java.classStem stem]) =
      if stem = "." then ".".intercalate (folders ++ [stem]) ++ "."
      else ".".intercalate (folders ++ [stem]) := by
  rw [Java.classStem]
  split
  · next h =>
    rw [h]
    exact intercalate_concat_append folders "." "."
  · rfl

/-- For a folder that starts with a `.` a scan of an absolute root finds nothing. -/
theorem matchingFolders_of_startsHere (hroot : FileTree.isAbsolute root.text = true)
    (h : StartsHere s) : t.matchingFolders root s config.prunedDirs = [] := by
  have hm := FileTree.here_mem_suffixComponents h
  have ha : ∀ names : List String,
      (FileTree.suffixComponents s).isSuffixOf (root.components ++ names.map .name) = false := by
    intro names
    rw [← Bool.not_eq_true, List.isSuffixOf_iff_suffix]
    intro hs
    rcases List.mem_append.1 (hs.subset hm) with h | h
    · exact Path.here_not_mem_components hroot h
    · obtain ⟨_, -, he⟩ := List.mem_map.1 h
      cases he
  rw [FileTree.matchingFolders]
  split
  · rfl
  · split
    · rfl
    · simp only [ha [], Bool.and_false, Bool.false_eq_true, if_false, Items.matching_eq_nil ha]
      exact List.mergeSort_nil

/-- Where the names of a file are cut, and where its extension is, is told by its names alone. -/
theorem ReachedFile.folders_eq {pruned front folders : List String} {stem : String}
    {f : ReachedFile inside pruned} (h : f.names = front ++ (folders ++ [stem ++ ".java"])) :
    f.folders = front ++ folders ∧ f.stem = stem := by
  have hfile : f.folders ++ [f.stem ++ ".java"] = (front ++ folders) ++ [stem ++ ".java"] :=
    h.trans (List.append_assoc _ _ _).symm
  obtain ⟨hfolders, hlast⟩ := List.append_inj' hfile rfl
  have he := congrArg String.toList (List.singleton_inj.1 hlast)
  rw [String.toList_append, String.toList_append] at he
  exact ⟨hfolders, String.toList_inj.1 (List.append_cancel_right he)⟩

/-- A file below a configured folder is found, if the walk comes to the folder. -/
theorem mem_sourceFiles {pruned front folders : List String} {stem dir : String} {g : Items}
    {f : ReachedFile inside pruned} (hn : f.names = front ++ (folders ++ [stem ++ ".java"]))
    (hat : g.at? (folders ++ [stem ++ ".java"]) = some (.file f.bytes))
    (hdir : dir ∈ config.dirsOf kind)
    (hfound : (front, g) ∈ t.matchingFolders root dir config.prunedDirs) :
    f.found root kind (".".intercalate (folders ++ [stem])) ∈
      Scan.sourceFiles t root config kind := by
  have hname : ∀ s ∈ front ++ (folders ++ [stem ++ ".java"]), IsName s := hn ▸ f.isName
  have hstem := (ReachedFile.folders_eq hn).2
  have hbelow : _ ∈ Scan.filesOf kind _ g := mem_filesOf
    (fun s hm => hname s (List.mem_append_right _ (List.mem_append_left _ hm)))
    (hname _ (List.mem_append_right _ (List.mem_append_right _ (List.mem_singleton_self _))))
    (hstem ▸ f.stem_ne) hat (root.descend front)
  rw [intercalate_classStem, ← descend_append, ← hn, ← hstem] at hbelow
  refine List.mem_flatMap.2 ⟨(root.descend front, g), ?_, ?_⟩
  · exact List.mem_flatMap.2 ⟨dir, hdir, List.mem_map.2 ⟨_, hfound, rfl⟩⟩
  · rw [ReachedFile.found, ReachedFile.foundClass, ← hstem]
    exact hbelow

/-- A changed file that is mapped to a class is found by a scan of a root that shares no step with a
configured folder, and as the same class; but if the folder that maps it starts with a `.`, the scan
finds nothing for that folder, and a file name with only a dot in front of its extension gives the
class a dot more. -/
theorem mem_sourceFiles_of_classify (hl : Layout.ofConfig config = .ok l)
    (hroot : FileTree.isAbsolute root.text = true)
    (hstart : t.walkStart? root = some (inside, counts))
    (hd : ∀ dir ∈ config.sourceDirs ++ config.testDirs, ∀ s ∈ segments dir,
      .name s ∉ root.components)
    (f : ReachedFile inside config.prunedDirs) (hc : l.classify f.text = some (kind, fqn)) :
    ∃ dir ∈ config.dirsOf kind,
      (∃ before below, f.names = before ++ (segments dir ++ below) ∧
        Layout.classBelow? below = some fqn) ∧
      (¬StartsHere dir → f.found root kind fqn ∈ Scan.sourceFiles t root config kind) ∧
      (StartsHere dir → t.matchingFolders root dir config.prunedDirs = []) := by
  obtain ⟨dir, hdir, before, below, hs, hb⟩ := exists_of_classify hl hc
  have hseg : segments f.text = f.names := segments_intercalate (fun s h => (f.isName s h).toIsStep)
    f.no_backslash
  rw [hseg] at hs
  have hnames : f.names = (before ++ segments dir) ++ below := append_of_splitAtFolder? hs
  refine ⟨dir, hdir, ⟨before, below, by rw [hnames, List.append_assoc], hb⟩, fun hh => ?_,
    matchingFolders_of_startsHere hroot⟩
  obtain ⟨hne, hfirst⟩ := le_of_splitAtFolder? hs
  obtain ⟨folders, stem, rfl, rfl⟩ := classBelow?_eq_some hb
  have hn : ∀ s ∈ (before ++ segments dir) ++ (folders ++ [stem ++ ".java"]), IsName s :=
    hnames ▸ f.isName
  have hat : inside.at? f.names = some (.file f.bytes) := f.at_eq
  rw [hnames, Items.at?_append (List.append_ne_nil_of_right_ne_nil _ (List.cons_ne_nil _ _))] at hat
  obtain ⟨g, hg, hat⟩ := hat
  refine mem_sourceFiles hnames hat hdir (mem_matchingFolders hstart
    (FileTree.suffixComponents_eq ?_ hh) (hd dir ?_) hne
    (List.append_ne_nil_of_right_ne_nil _ hne) hg ?_ (List.suffix_append _ _) ?_)
  · intro hm
    exact (hn _ (List.mem_append_left _ (List.mem_append_right _ hm))).ne_up rfl
  · cases kind
    · exact List.mem_append_left _ hdir
    · exact List.mem_append_right _ hdir
  · intro s hm
    refine f.entered s ?_
    rw [(ReachedFile.folders_eq hnames).1]
    exact List.mem_append_left _ hm
  · -- The walk stops at the first place of the folder, which is where the path is cut.
    intro start rest he hr hs
    have hle := hfirst start (rest ++ (folders ++ [stem ++ ".java"])) ?_ hs
    · have hlen := congrArg List.length he
      have hpos := List.length_pos_iff.2 hr
      rw [hlen, List.length_append] at hle
      omega
    · rw [hnames, he, List.append_assoc]

end

/-! ## A small project -/

/-- A project that holds one file of the given name. -/
def oneFile (name : String) : Items :=
  .folder "src" (.folder "a" (.file name [] .empty) .empty) .empty

/-- The project as the only folder of a tree. -/
def oneProject (name : String)
    (hn : Items.WellNamed (.folder "p" (oneFile name) .empty) := by decide) : FileTree where
  disk := ⟨.folder "p" (oneFile name) .empty, hn⟩
  here := []

/-- The configuration with one source folder. -/
def oneDir (dir : String) : Config := { sourceDirs := [dir], testDirs := [], excludePaths := [] }

/-- A walk of the example starts at its folder, which counts as found. -/
theorem walkStart?_oneProject (name : String)
    (hn : Items.WellNamed (.folder "p" (oneFile name) .empty)) :
    (oneProject name hn).walkStart? ⟨"/p"⟩ = some (oneFile name, true) := by
  have hp : (oneProject name hn).placeOf (FileTree.pathOf ["p"]) .itself = .ok ["p"] :=
    FileTree.placeOf_pathOf (by decide) rfl (FileTree.folder_ne_link _)
  have hr : FileTree.pathOf ["p"] = ⟨"/p"⟩ := by decide
  rw [FileTree.walkStart?, FileTree.itemItself?, ← hr, hp]
  rfl

/-- The file of the project as a walk reaches it. -/
def reachedFile : ReachedFile (oneFile "B.java") (oneDir "//src\\").prunedDirs where
  folders := ["src", "a"]
  stem := "B"
  bytes := []
  isName := by decide
  no_backslash := by decide
  stem_ne := by decide
  at_eq := by decide
  entered := by decide

/-- The file is found, though the configured folder is written with slashes in front of it and with
a backslash behind it. -/
theorem mem_sourceFiles_of_classify_reachedFile :
    ∃ l, Layout.ofConfig (oneDir "//src\\") = .ok l ∧
      l.classify reachedFile.text = some (.production, "a.B") ∧
      ¬StartsHere "//src\\" ∧
      reachedFile.found ⟨"/p"⟩ .production "a.B" ∈
        Scan.sourceFiles (oneProject "B.java") ⟨"/p"⟩ (oneDir "//src\\") .production := by
  have hh : ¬StartsHere "//src\\" := by decide
  have hc : (⟨[["src"]], [], []⟩ : Layout).classify reachedFile.text =
      some (.production, "a.B") := by decide
  have hl : Layout.ofConfig (oneDir "//src\\") = .ok ⟨[["src"]], [], []⟩ := rfl
  obtain ⟨dir, hdir, -, hfound, -⟩ := mem_sourceFiles_of_classify hl (by decide)
    (walkStart?_oneProject "B.java" (by decide)) (by decide) reachedFile hc
  obtain rfl : dir = "//src\\" := List.mem_singleton.1 hdir
  exact ⟨_, hl, hc, hh, hfound hh⟩

/-- Not every file that is mapped to a class is found as that class: a configured folder may start
with a `.`, and the stem of a file may be a dot. -/
theorem exists_mapped_and_not_found :
    ((Layout.ofConfig (oneDir "./src")).toOption.map fun l => l.classify "src/a/B.java") =
        some (some (.production, "a.B")) ∧
      (Scan.sourceFiles (oneProject "B.java") ⟨"/p"⟩ (oneDir "./src") .production).map (·.fqn) =
        [] ∧
      ((Layout.ofConfig (oneDir "src")).toOption.map fun l => l.classify "src/a/..java") =
        some (some (.production, "a..")) ∧
      (Scan.sourceFiles (oneProject "..java") ⟨"/p"⟩ (oneDir "src") .production).map (·.fqn) =
        ["a..."] := by
  simp only [Scan.sourceFiles, Scan.foldersOf, FileTree.matchingFolders, walkStart?_oneProject]
  decide +kernel

end TestImpact
