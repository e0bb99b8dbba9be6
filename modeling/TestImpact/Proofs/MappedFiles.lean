import TestImpact.Proofs.ChangedClasses
import TestImpact.Proofs.SourceFiles
import TestImpact.Proofs.Text.Pieces

/-!
# Which changed files are mapped

A changed path is mapped if it is a source file that is not left out and a configured folder stands
in front of its file name; it is a test if one of the test folders does. Main statement: the files
and the classes of a change are exactly these (`mappedBy_changedClasses`). The files of the two
kinds are apart; their classes need not be, since a production file and a test file may give one
name (`exists_production_and_test`).
-/

namespace TestImpact

open Java (SourceKind)

/-- All segments of the folder stand in the path, in front of its file name. -/
def StandsBefore (folder path : String) : Prop :=
  segments folder ≠ [] ∧ segments folder <:+: (segments path).dropLast

instance {folder path : String} : Decidable (StandsBefore folder path) :=
  inferInstanceAs (Decidable (_ ∧ _))

section
variable {folder names before after : List String}
  {path dir fqn : String} {config : Config} {l : Layout} {kind : SourceKind} {changed : NameSet}

/-! ## The last segment of a path -/

/-- The file name of a source file, in a text with slashes alone. -/
theorem exists_afterLast_of_endsIn (h : endsIn ".java" path = true) :
    ∃ stem : String,
      afterLast '/' (replaceChar '\\' '/' path).toList = (stem ++ ".java").toList := by
  obtain ⟨start, hstart⟩ := List.isSuffixOf_iff_suffix.1 h
  have htext : (replaceChar '\\' '/' path).toList =
      start.map (fun c => if c = '\\' then '/' else c) ++ ".java".toList := by
    rw [replaceChar, String.toList_ofList, ← hstart, List.map_append]
    rfl
  refine ⟨.ofList (afterLast '/' (start.map fun c => if c = '\\' then '/' else c)), ?_⟩
  rw [htext, afterLast_append (by decide), String.toList_append]
  exact congrArg (· ++ _) String.toList_ofList.symm

/-- No short text is the name of a source file. -/
theorem append_java_ne {stem t : String} (ht : t.toList.length < 5) : stem ++ ".java" ≠ t := by
  rintro rfl
  rw [String.toList_append, List.length_append] at ht
  exact absurd ht (Nat.not_lt.2 (Nat.le_add_left 5 _))

/-- The file name of a source file is its last segment. -/
theorem exists_segments_concat (h : endsIn ".java" path = true) :
    ∃ stem, segments path = (segments path).dropLast ++ [stem ++ ".java"] := by
  obtain ⟨stem, hstem⟩ := exists_afterLast_of_endsIn h
  obtain ⟨front, hp⟩ := exists_splitOn_concat '/' (replaceChar '\\' '/' path).toList
  have hkept : ([stem ++ ".java"].filter fun s => s ≠ "" && s ≠ ".") = [stem ++ ".java"] :=
    List.filter_eq_self.2 fun t ht => by
      rw [List.mem_singleton.1 ht]
      simp [append_java_ne (t := "") (by decide), append_java_ne (t := ".") (by decide)]
  have hsegments : ∃ more, segments path = more ++ [stem ++ ".java"] := by
    refine ⟨(front.map String.ofList).filter fun s => s ≠ "" && s ≠ ".", ?_⟩
    rw [segments, piecesOf, hp, hstem, List.map_append, List.map_singleton, String.ofList_toList,
      List.filter_append, hkept]
  obtain ⟨more, hmore⟩ := hsegments
  exact ⟨stem, by rw [hmore, List.dropLast_concat]⟩

/-! ## The class below a folder -/

/-- The class that the names give a file in the folder, if the folder stands there. -/
def classUnder? (folder names : List String) : Option String :=
  (splitAtFolder? folder names).bind fun parts => Layout.classBelow? parts.2

/-- The class that the first of the folders gives a path. -/
def classAmong? (folders : List (List String)) (path : String) : Option String :=
  folders.findSome? (classUnder? · (segments path))

/-- Test folders come before source folders. -/
theorem classify_eq :
    l.classify path =
      ((classAmong? l.testDirs path).map (SourceKind.test, ·)).or
        ((classAmong? l.sourceDirs path).map (SourceKind.production, ·)) := by
  have hclassify : l.classify path =
      l.folders.findSome? fun f => (classUnder? f.2 (segments path)).map (f.1, ·) := by
    rw [Layout.classify]
    refine congrArg (List.findSome? · l.folders) (funext fun f => ?_)
    obtain ⟨kind, folder⟩ := f
    simp only [classUnder?]
    cases splitAtFolder? folder (segments path) with
    | none => simp only [Option.bind_eq_bind, Option.bind_none, Option.map_none]
    | some parts => cases hb : Layout.classBelow? parts.2 <;> simp [hb]
  have hkind : ∀ (kind : SourceKind) (folders : List (List String)),
      (folders.map (kind, ·)).findSome? (fun f => (classUnder? f.2 (segments path)).map (f.1, ·)) =
        (classAmong? folders path).map (kind, ·) := by
    intro kind folders
    rw [List.findSome?_map, classAmong?, List.map_findSome?]
    rfl
  rw [hclassify, Layout.folders, List.findSome?_append, hkind, hkind]

/-- A path is cut wherever a folder stands. -/
theorem isSome_splitAtFolder? (hne : folder ≠ []) (h : folder <:+: names) :
    (splitAtFolder? folder names).isSome = true := by
  induction names with
  | nil => exact absurd (List.infix_nil.1 h) hne
  | cons s names ih =>
    rw [splitAtFolder?]
    split
    · rfl
    · next hc =>
      rw [Option.isSome_map]
      rcases List.infix_cons_iff.1 h with hp | hi
      · exact absurd ⟨hne, List.isPrefixOf_iff_prefix.2 hp⟩ hc
      · exact ih hi

/-- A folder that stands in front of the last name has something below it where it stands first. -/
theorem exists_splitAtFolder?_iff :
    (∃ before after, splitAtFolder? folder names = some (before, after) ∧ after ≠ []) ↔
      folder ≠ [] ∧ folder <:+: names.dropLast := by
  refine ⟨?_, ?_⟩
  · rintro ⟨before, after, hs, hne⟩
    refine ⟨(le_of_splitAtFolder? hs).1, before, after.dropLast, ?_⟩
    rw [append_of_splitAtFolder? hs, List.dropLast_append_of_ne_nil hne]
  · rintro ⟨hne, start, rest, he⟩
    have hnames : names.dropLast ++ [names.getLast (by rintro rfl; simp_all)] = names :=
      List.dropLast_concat_getLast _
    have hi : folder <:+: names :=
      List.IsInfix.trans ⟨start, rest, he⟩ (List.dropLast_prefix names).isInfix
    obtain ⟨⟨before, after⟩, hs⟩ := Option.isSome_iff_exists.1 (isSome_splitAtFolder? hne hi)
    refine ⟨before, after, hs, ?_⟩
    -- The first place of the folder is no later than the one that is in front of the last name.
    have hle := (le_of_splitAtFolder? hs).2 (start ++ folder) (rest ++ [names.getLast _]) (by
      rw [← List.append_assoc, he, hnames]) (List.suffix_append _ _)
    rintro rfl
    have hlen := congrArg List.length (append_of_splitAtFolder? hs)
    rw [← hnames, ← he] at hlen
    simp only [List.length_append, List.length_singleton, List.length_nil] at hle hlen
    omega

/-- A source file has a class under each folder that stands in front of its name. -/
theorem isSome_classUnder?_iff {stem : String} (hn : names = names.dropLast ++ [stem ++ ".java"]) :
    (classUnder? folder names).isSome = true ↔ folder ≠ [] ∧ folder <:+: names.dropLast := by
  rw [← exists_splitAtFolder?_iff, classUnder?]
  cases hs : splitAtFolder? folder names with
  | none => simp
  | some parts =>
    obtain ⟨before, after⟩ := parts
    have hclass : (Layout.classBelow? after).isSome = true ↔ after ≠ [] := by
      by_cases hne : after = []
      · subst hne
        exact iff_of_false nofun fun h => h rfl
      · have hlast : after.getLast? = some (stem ++ ".java") := by
          have hl : names.getLast? = some (stem ++ ".java") := by rw [hn, List.getLast?_concat]
          rwa [append_of_splitAtFolder? hs, List.getLast?_append,
            List.getLast?_eq_some_getLast hne, Option.some_or,
            ← List.getLast?_eq_some_getLast hne] at hl
        have hstem : dropEnd? ".java" (stem ++ ".java") = some stem := dropEnd?_eq_some.2 rfl
        simp [Layout.classBelow?, hlast, hstem, hne]
    simpa [and_assoc] using hclass

/-- A source file has a class exactly if one of the folders stands in front of its name. -/
theorem isSome_classAmong?_iff {dirs : List String} (h : endsIn ".java" path = true) :
    (classAmong? (dirs.map segments) path).isSome = true ↔ ∃ dir ∈ dirs, StandsBefore dir path := by
  obtain ⟨stem, hn⟩ := exists_segments_concat h
  rw [classAmong?, List.findSome?_map, List.findSome?_isSome_iff]
  simp only [Function.comp_apply, isSome_classUnder?_iff hn, StandsBefore]

/-! ## The files of a change -/

/-- A layout has the segments of the configured folders and the compiled patterns. -/
theorem ofConfig_eq_ok (hl : Layout.ofConfig config = .ok l) :
    l.sourceDirs = config.sourceDirs.map segments ∧ l.testDirs = config.testDirs.map segments ∧
      config.excludes = .ok l.excludes := by
  rw [Layout.ofConfig] at hl
  cases he : config.excludes with
  | error e => rw [he] at hl; cases hl
  | ok excludes => rw [he] at hl; cases hl; exact ⟨rfl, rfl, rfl⟩

/-- A changed path that counts as a source file. -/
structure IsChangedSource (l : Layout) (changed : NameSet) (path : String) : Prop where
  changed : path ∈ changed
  isSource : endsIn ".java" path = true
  kept : l.isExcluded path = false

/-- A changed class is that of a source file that is not left out. -/
theorem changedClass?_eq_some :
    l.changedClass? path = some (kind, fqn) ↔
      (endsIn ".java" path = true ∧ l.isExcluded path = false) ∧
        l.classify path = some (kind, fqn) := by
  rw [Layout.changedClass?]
  by_cases h : endsIn ".java" path = true ∧ l.isExcluded path = false
  · simp [h]
  · rw [iff_false_right fun h' => h h'.1]
    rw [if_neg (by simpa using h)]
    exact nofun

/-- The files of a kind. -/
def ChangedClasses.filesOf (m : ChangedClasses) : SourceKind → NameSet
  | .production => m.productionFiles
  | .test => m.testFiles

/-- The classes of a kind. -/
def ChangedClasses.classesOf (m : ChangedClasses) : SourceKind → NameSet
  | .production => m.productionClasses
  | .test => m.testClasses

/-- The changed files of a kind are the changed sources that classify so. -/
theorem mem_filesOf_changedClasses :
    path ∈ (l.changedClasses changed).filesOf kind ↔
      IsChangedSource l changed path ∧ ∃ f, l.classify path = some (kind, f) := by
  have hm : path ∈ (l.changedClasses changed).filesOf kind ↔
      ∃ f, (path, f) ∈ l.changedOf kind changed := by
    cases kind <;> simp [ChangedClasses.filesOf, Layout.changedClasses]
  rw [hm]
  simp only [Layout.mem_changedOf, changedClass?_eq_some]
  refine ⟨?_, ?_⟩
  · rintro ⟨f, hc, ⟨hs, hk⟩, hf⟩
    exact ⟨⟨hc, hs, hk⟩, f, hf⟩
  · rintro ⟨h, f, hf⟩
    exact ⟨f, h.changed, ⟨h.isSource, h.kept⟩, hf⟩

/-- The classes of a kind are those that its files are mapped to. -/
theorem mem_classesOf_changedClasses :
    fqn ∈ (l.changedClasses changed).classesOf kind ↔
      ∃ p ∈ (l.changedClasses changed).filesOf kind, l.classify p = some (kind, fqn) := by
  have hm : fqn ∈ (l.changedClasses changed).classesOf kind ↔
      ∃ p, (p, fqn) ∈ l.changedOf kind changed := by
    cases kind <;> simp [ChangedClasses.classesOf, Layout.changedClasses]
  rw [hm]
  simp only [Layout.mem_changedOf, changedClass?_eq_some, mem_filesOf_changedClasses]
  refine exists_congr fun p => ⟨?_, ?_⟩
  · rintro ⟨hc, ⟨hs, hk⟩, hf⟩
    exact ⟨⟨⟨hc, hs, hk⟩, fqn, hf⟩, hf⟩
  · rintro ⟨⟨h, -⟩, hf⟩
    exact ⟨h.changed, ⟨h.isSource, h.kept⟩, hf⟩

/-- A path has a test class if a test folder gives it one, and a production class if source folders
alone do. -/
theorem exists_classify_iff :
    (∃ f, l.classify path = some (kind, f)) ↔
      match kind with
      | .test => (classAmong? l.testDirs path).isSome = true
      | .production => (classAmong? l.testDirs path).isSome = false ∧
          (classAmong? l.sourceDirs path).isSome = true := by
  rw [classify_eq]
  cases classAmong? l.testDirs path with
  | some f => cases kind <;> simp
  | none => cases classAmong? l.sourceDirs path <;> cases kind <;> simp

/-- The files and classes that a change is mapped to. -/
structure ChangedClasses.MappedBy (m : ChangedClasses) (config : Config) (l : Layout)
    (changed : NameSet) : Prop where
  /-- A file counts if a configured folder stands in front of its name. -/
  mem_files : ∀ p, (∃ kind, p ∈ m.filesOf kind) ↔
    IsChangedSource l changed p ∧ ∃ kind, ∃ dir ∈ config.dirsOf kind, StandsBefore dir p
  /-- It is a test if one of the test folders does. -/
  mem_testFiles : ∀ p, p ∈ m.testFiles ↔
    IsChangedSource l changed p ∧ ∃ dir ∈ config.testDirs, StandsBefore dir p
  /-- The files of the two kinds are apart. -/
  files_disjoint : ∀ p ∈ m.productionFiles, p ∉ m.testFiles
  /-- The classes of a kind are those that its files are mapped to. -/
  mem_classes : ∀ kind f, f ∈ m.classesOf kind ↔
    ∃ p ∈ m.filesOf kind, l.classify p = some (kind, f)
  /-- A class is of both kinds if files of both kinds are mapped to it. -/
  mem_both : ∀ f, f ∈ m.productionClasses ∧ f ∈ m.testClasses ↔
    ∃ p ∈ m.productionFiles, ∃ q ∈ m.testFiles,
      l.classify p = some (.production, f) ∧ l.classify q = some (.test, f)

/-- The files and classes of a change under a configuration that can be used. -/
theorem mappedBy_changedClasses (hl : Layout.ofConfig config = .ok l) :
    (l.changedClasses changed).MappedBy config l changed := by
  obtain ⟨hsource, htest, -⟩ := ofConfig_eq_ok hl
  have htests : ∀ p, IsChangedSource l changed p →
      ((classAmong? l.testDirs p).isSome = true ↔ ∃ dir ∈ config.testDirs, StandsBefore dir p) :=
    fun p hp => htest ▸ isSome_classAmong?_iff hp.isSource
  have hsources : ∀ p, IsChangedSource l changed p →
      ((classAmong? l.sourceDirs p).isSome = true ↔
        ∃ dir ∈ config.sourceDirs, StandsBefore dir p) :=
    fun p hp => hsource ▸ isSome_classAmong?_iff hp.isSource
  have hmem : ∀ p kind, p ∈ (l.changedClasses changed).filesOf kind ↔ _ :=
    fun p kind => mem_filesOf_changedClasses.trans (and_congr_right fun _ => exists_classify_iff)
  refine ⟨fun p => ?_, fun p => ?_, fun p hp ht => ?_, fun kind f => mem_classesOf_changedClasses,
    fun f => ?_⟩
  · simp only [hmem, exists_and_left]
    refine and_congr_right fun hp => ⟨?_, ?_⟩
    · rintro ⟨kind, h⟩
      cases kind with
      | test => exact ⟨.test, (htests p hp).1 h⟩
      | production => exact ⟨.production, (hsources p hp).1 h.2⟩
    · rintro ⟨kind, h⟩
      by_cases ht : (classAmong? l.testDirs p).isSome = true
      · exact ⟨.test, ht⟩
      · cases kind with
        | test => exact absurd ((htests p hp).2 h) ht
        | production => exact ⟨.production, by simpa using ht, (hsources p hp).2 h⟩
  · exact (hmem p .test).trans (and_congr_right fun hp => htests p hp)
  · obtain ⟨-, hnot, -⟩ := (hmem p .production).1 hp
    obtain ⟨-, hyes⟩ := (hmem p .test).1 ht
    exact absurd hyes (by simp [hnot])
  · have hclasses : ∀ kind, f ∈ (l.changedClasses changed).classesOf kind ↔ _ :=
      fun kind => mem_classesOf_changedClasses
    refine (and_congr (hclasses .production) (hclasses .test)).trans ⟨?_, ?_⟩
    · rintro ⟨⟨p, hp, hfp⟩, q, hq, hfq⟩
      exact ⟨p, hp, q, hq, hfp, hfq⟩
    · rintro ⟨p, hp, q, hq, hfp, hfq⟩
      exact ⟨⟨p, hp, hfp⟩, q, hq, hfq⟩

end

/-! ## One name in both kinds of folders -/

/-- What holds of a result that is there. -/
theorem exists_ok_of_any {ε α : Type} {x : Except ε α} {p : α → Bool}
    (h : x.toOption.any p = true) : ∃ a, x = .ok a ∧ p a = true := by
  cases x with
  | error => cases h
  | ok a => exact ⟨a, rfl, h⟩

/-- A production file and a test file of one name, and two files that do not count. -/
def twoKinds : NameSet :=
  .ofList ["src/main/java/p/A.java", "src/test/java/p/A.java", "src/main/java.java",
    "src/main/java/generated/D.java"]

/-- What `twoKinds` is mapped to under the default configuration. -/
def mappedKinds : ChangedClasses where
  productionClasses := .ofList ["p.A"]
  testClasses := .ofList ["p.A"]
  productionFiles := .ofList ["src/main/java/p/A.java"]
  testFiles := .ofList ["src/test/java/p/A.java"]

/-- The two files of the example are mapped with the default configuration. -/
theorem exists_changedClasses_twoKinds :
    ∃ l, Layout.ofConfig {} = .ok l ∧ l.changedClasses twoKinds = mappedKinds := by
  have hv : (Layout.ofConfig {}).toOption.any (fun l => l.changedClasses twoKinds = mappedKinds) =
      true := by
    decide +kernel
  obtain ⟨l, hl, hv⟩ := exists_ok_of_any hv
  exact ⟨l, hl, of_decide_eq_true hv⟩

/-- Two of the four files are mapped. -/
theorem mappedBy_changedClasses_twoKinds :
    ∃ l, Layout.ofConfig {} = .ok l ∧ (l.changedClasses twoKinds).MappedBy {} l twoKinds ∧
      (l.changedClasses twoKinds).productionFiles = .ofList ["src/main/java/p/A.java"] := by
  obtain ⟨l, hl, hm⟩ := exists_changedClasses_twoKinds
  exact ⟨l, hl, mappedBy_changedClasses hl, by rw [hm]; rfl⟩

/-- A name may be the class of a changed production file and of a changed test file. -/
theorem exists_production_and_test :
    ∃ l, Layout.ofConfig {} = .ok l ∧
      "p.A" ∈ (l.changedClasses twoKinds).productionClasses ∧
      "p.A" ∈ (l.changedClasses twoKinds).testClasses := by
  obtain ⟨l, hl, hm⟩ := exists_changedClasses_twoKinds
  exact ⟨l, hl, by rw [hm]; decide, by rw [hm]; decide⟩

end TestImpact
