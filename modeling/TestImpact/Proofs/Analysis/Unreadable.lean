import TestImpact.Proofs.Analysis.Monotone
import TestImpact.Proofs.Catalogue.Unreadable

/-!
# An unreadable file harms only itself

Without a file that cannot be read, a change is searched for in the same folders, where the same
classes are found, so every analysis of every change has the same impact (`remove_unreadable`). The
file may be a copy of a readable one in another source folder (`remove_unreadable_brokenCopy`).
-/

namespace TestImpact

namespace SearchRoots

section
variable {t : FileTree} {project root p : Path} {l : Layout} {mapping : NameMap String}
  {changed : NameSet} {place : List String} {bytes : List UInt8} {target : String}

/-- The project's folder stays, if it was not the file. -/
theorem projectRoot_without (h : t.top.at? place = some (.file bytes))
    (hp : t.placeOf project .target ≠ .ok place) :
    projectRoot (t.without place) project = projectRoot t project := by
  rw [projectRoot, projectRoot]
  cases hc : t.canonical project with
  | ok root => rw [(FileTree.canonical_without h).2 ⟨hc, hp⟩]
  | error why =>
    cases hc' : (t.without place).canonical project with
    | error why' => rfl
    | ok root =>
      rw [((FileTree.canonical_without h).1 hc').1] at hc
      cases hc

/-- The path of a file is not the path of a folder. -/
theorem isFolder_pathOf_file (h : t.top.at? place = some (.file bytes))
    (hp : t.placeOf p .target = .ok place) :
    t.isFolder (FileTree.pathOf place) = false := by
  rw [← Bool.not_eq_true, FileTree.isFolder_eq_true]
  rintro ⟨g, hg⟩
  obtain ⟨found, hfound, hat⟩ := FileTree.itemOf_eq_some.1 hg
  obtain rfl := FileTree.eq_of_placeOf_pathOf (FileTree.isName_of_placeOf hp) h (by simp) hfound
  cases h.symm.trans hat

/-- A target is a folder of the search by its text, by its canonical path and by what stands
there. -/
theorem destination_eq_folder_iff :
    destination t root target = .folder p ↔
      (targetPath root target).startsWith root = true ∧
        t.canonical (targetPath root target) = .ok p ∧ p.startsWith root = true ∧
          t.isFolder p = true := by
  rw [destination]
  split
  · next hs =>
    cases t.canonical (targetPath root target) with
    | error why => simp
    | ok real =>
      rw [Except.ok.injEq]
      grind
  · next hs => simp [hs]

/-- A target leads to the folders that it led to. -/
theorem destination_without (h : t.top.at? place = some (.file bytes)) :
    destination (t.without place) root target = .folder p ↔
      destination t root target = .folder p := by
  simp only [destination_eq_folder_iff, FileTree.canonical_without h, FileTree.isFolder_without h]
  refine and_congr_right fun _ => ⟨fun ⟨⟨hc, _⟩, hfolder⟩ => ⟨hc, hfolder⟩, fun ⟨hc, hfolder⟩ => ?_⟩
  refine ⟨⟨hc, fun hp => ?_⟩, hfolder⟩
  obtain rfl : FileTree.pathOf place = p := Except.ok.inj ((FileTree.canonical_eq hp).symm.trans hc)
  rw [isFolder_pathOf_file h hp] at hfolder
  cases hfolder.2

/-- The same folders are searched. -/
theorem mem_roots_without (h : t.top.at? place = some (.file bytes))
    (hp : t.placeOf project .target ≠ .ok place) :
    p ∈ (resolve (t.without place) project l mapping changed).roots ↔
      p ∈ (resolve t project l mapping changed).roots := by
  simp only [mem_roots, LeadsTo, projectRoot_without h hp, destination_without h]

end

end SearchRoots

namespace Analysis

section
variable {a : Analysis} {t : FileTree} {changed : NameSet} {place : List String} {p : Path}
  {bytes : List UInt8}

/-- The same tests are discovered. -/
theorem discover_without (h : t.top.at? place = some (.file bytes)) (hb : IsUnreadable bytes)
    (hp : t.placeOf a.project .target ≠ .ok place) (production : NameSet) :
    a.discover (t.without place) changed production = a.discover t changed production := by
  refine NameSet.ext_mem fun x => ?_
  rw [mem_discover, mem_discover]
  refine exists_congr fun root => and_congr (SearchRoots.mem_roots_without h hp) ?_
  rw [catalogueAt, catalogueAt, (Scan.ofRoot_without h hb root a.config).catalogue_eq]

/-- Once a file that cannot be read is taken away, a scan of any root finds the same, and the impact
of every change is the same for every project but the file itself. -/
theorem remove_unreadable
    (hfile : t.itemItself? p = some (.file bytes)) (hb : IsUnreadable bytes) :
    (∀ root config,
        (Scan.ofRoot t root config).SameBesideFailures (Scan.ofRoot (t.remove p) root config)) ∧
      ∀ a : Analysis, t.placeOf a.project .target ≠ t.placeOf p .itself →
        ∀ changed, a.analyze (t.remove p) changed = a.analyze t changed := by
  obtain ⟨place, hp, h⟩ := FileTree.exists_place_of_file hfile
  rw [FileTree.remove_eq hp, hp]
  refine ⟨Scan.ofRoot_without h hb, fun a hproject changed => ?_⟩
  simp only [analyze, selected, discover_without h hb hproject]

end

/-! ## A broken copy

Two files of `brokenCopy` are found as the class `A`. The one that comes first is no text.
-/

/-- A project with two files for one class, of which the first one cannot be read. -/
def brokenCopy : Folder where
  items := .folder "main" (.file "A.java" [0xFF] .empty)
    (.folder "lib" (.file "A.java" "class A { }".toUTF8.toList .empty)
      (.folder "test" (.file "ATest.java" "class ATest { }".toUTF8.toList .empty) .empty))

/-- The path of the file that cannot be read. -/
def brokenPath : Path := FileTree.pathOf ["p", "main", "A.java"]

/-- The file in front of the readable one makes no difference; a scan counts it as its one
failure. -/
theorem remove_unreadable_brokenCopy :
    (projectOf brokenCopy).itemItself? brokenPath = some (.file [0xFF]) ∧
      IsUnreadable [0xFF] ∧
      heldAnalysis.analyze ((projectOf brokenCopy).remove brokenPath) (.ofList ["main/A.java"]) =
        heldAnalysis.analyze (projectOf brokenCopy) (.ofList ["main/A.java"]) ∧
      (Scan.ofRoot (projectOf brokenCopy) ⟨"/p"⟩ heldAnalysis.config).parseFailures = 1 := by
  have hat : (projectOf brokenCopy).top.at? ["p", "main", "A.java"] = some (.file [0xFF]) := rfl
  have hplace : (projectOf brokenCopy).placeOf brokenPath .itself = .ok ["p", "main", "A.java"] :=
    FileTree.placeOf_pathOf (by decide) hat (by simp)
  have hfile : (projectOf brokenCopy).itemItself? brokenPath = some (.file [0xFF]) := by
    rw [FileTree.itemItself?, hplace]
    exact hat
  have hb : IsUnreadable [0xFF] := .inl (by decide +kernel)
  have hproject : (projectOf brokenCopy).placeOf heldAnalysis.project .target ≠
      (projectOf brokenCopy).placeOf brokenPath .itself := by
    rw [hplace, show heldAnalysis.project = ⟨"/p"⟩ from rfl, placeOf_projectOf]
    simp
  have hsame := remove_unreadable hfile hb
  refine ⟨hfile, hb, hsame.2 heldAnalysis hproject _, ?_⟩
  simp only [Scan.ofRoot, Scan.sourceFiles, Scan.foldersOf, FileTree.matchingFolders,
    walkStart?_projectOf]
  decide +kernel

end Analysis

end TestImpact
