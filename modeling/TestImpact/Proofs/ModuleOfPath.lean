import Mathlib.Data.Nat.Find
import TestImpact.Proofs.MappedFiles

/-!
# The module of a path

The module of a path is what stands in front of one of the configured folders. Where several of them
stand in the path, the first one in the order of the configuration counts, source folders before
test folders, and not the one that stands furthest in front. Main statement: which front of the
path the module is, when this is the front of all folders, and when no folder stands in it
(`moduleOf_isFront`).
-/

namespace TestImpact

/-- All segments of the folder stand in the path, the first of them behind `n` others. -/
def StandsAt (folder path : String) (n : Nat) : Prop :=
  segments folder ≠ [] ∧ segments folder <+: (segments path).drop n

instance {folder path : String} {n : Nat} : Decidable (StandsAt folder path n) :=
  inferInstanceAs (Decidable (_ ∧ _))

/-- The first `n` segments of a path, as a path. -/
def frontOf (path : String) (n : Nat) : String := "/".intercalate ((segments path).take n)

/-- The configured folders, source folders in front of test folders. -/
def Config.allDirs (c : Config) : List String := c.sourceDirs ++ c.testDirs

/-- Of all the folders one stands at `n`, and none stands in front of that place. -/
structure IsFirstPlace (dirs : List String) (path : String) (n : Nat) : Prop where
  stands : ∃ dir ∈ dirs, StandsAt dir path n
  first : ∀ dir ∈ dirs, ∀ m, StandsAt dir path m → n ≤ m

/-- The folder `dir` counts for the module of a path: no folder that is configured in front of it
stands in the path, and `n` is the first place where `dir` does. -/
structure Counts (config : Config) (path : String) (before : List String) (dir : String)
    (after : List String) (n : Nat) : Prop where
  dirs_eq : config.allDirs = before ++ dir :: after
  none_before : ∀ d ∈ before, ∀ m, ¬StandsAt d path m
  stands : StandsAt dir path n
  first : ∀ m, StandsAt dir path m → n ≤ m

/-- What the module of a path is, where a folder counts for it and the folders `after` are
configured behind that one. -/
structure IsFront (config : Config) (path : String) (after : List String) (n : Nat)
    (module : String) : Prop where
  eq_front : module = frontOf path n
  /-- It is the front of all folders unless one configured behind stands further in front. -/
  eq_first_iff : (∀ m, IsFirstPlace config.allDirs path m → module = frontOf path m) ↔
    ∀ d ∈ after, ∀ m, StandsAt d path m → n ≤ m
  /-- No folder stands in it unless one configured behind does as a whole. -/
  free_iff : (∀ d ∈ config.allDirs, ∀ m, ¬StandsAt d module m) ↔
    ∀ d ∈ after, ∀ m, StandsAt d path m → n < m + (segments d).length

section
variable {path dir : String} {m n : Nat} {before after dirs : List String} {config : Config}
  {l : Layout}

/-! ## Places of one folder -/

/-- A folder ends inside the path. -/
theorem StandsAt.add_le (h : StandsAt dir path n) :
    n + (segments dir).length ≤ (segments path).length := by
  have hpos := List.length_pos_iff.2 h.1
  have hle := h.2.length_le
  rw [List.length_drop] at hle
  omega

/-- The folder's segments stand in those of the path. -/
theorem StandsAt.segments_isInfix (h : StandsAt dir path n) : segments dir <:+: segments path :=
  h.2.isInfix.trans (List.drop_suffix _ _).isInfix

/-- A path is cut at a folder where it stands first. -/
theorem splitAtFolder?_eq_some {rest : List String}
    (h : splitAtFolder? (segments dir) (segments path) = some (before, rest)) :
    before = (segments path).take before.length ∧ StandsAt dir path before.length ∧
      ∀ m, StandsAt dir path m → before.length ≤ m := by
  have he := append_of_splitAtFolder? h
  obtain ⟨hne, hle⟩ := le_of_splitAtFolder? h
  rw [List.append_assoc] at he
  refine ⟨by rw [he, List.take_left], ⟨hne, ?_⟩, fun m hm => ?_⟩
  · rw [he, List.drop_left]
    exact List.prefix_append _ _
  · obtain ⟨rest', hrest⟩ := hm.2
    have hm' := hm.add_le
    have hcut : segments path = ((segments path).take m ++ segments dir) ++ rest' := by
      rw [List.append_assoc, hrest, List.take_append_drop]
    have := hle _ _ hcut (List.suffix_append _ _)
    rw [List.length_append, List.length_append, List.length_take] at this
    omega

/-- A path cannot be split at a folder exactly if the folder stands nowhere in it. -/
theorem splitAtFolder?_eq_none :
    splitAtFolder? (segments dir) (segments path) = none ↔ ∀ m, ¬StandsAt dir path m := by
  refine ⟨fun h m hm => ?_, fun h => ?_⟩
  · have := isSome_splitAtFolder? hm.1 hm.segments_isInfix
    rw [h] at this
    cases this
  · cases hs : splitAtFolder? (segments dir) (segments path) with
    | none => rfl
    | some parts => exact absurd (splitAtFolder?_eq_some hs).2.1 (h _)

/-! ## Fronts -/

/-- The segments of a front are the first ones of the path. -/
theorem segments_frontOf (path : String) (n : Nat) :
    segments (frontOf path n) = (segments path).take n :=
  segments_intercalate (fun _ hs => (isStep_of_mem_segments (List.mem_of_mem_take hs)).1)
    fun _ hs => (isStep_of_mem_segments (List.mem_of_mem_take hs)).2

/-- Different places have different fronts. -/
theorem eq_of_frontOf_eq (hm : m ≤ (segments path).length) (hn : n ≤ (segments path).length)
    (h : frontOf path m = frontOf path n) : m = n := by
  have hl := congrArg (fun p => (segments p).length) h
  simp only [segments_frontOf, List.length_take] at hl
  omega

/-- In a front of a path stand the folders that end in it. -/
theorem standsAt_frontOf :
    StandsAt dir (frontOf path n) m ↔ StandsAt dir path m ∧ m + (segments dir).length ≤ n := by
  rw [StandsAt, StandsAt, segments_frontOf, List.drop_take, List.prefix_take_iff, and_assoc]
  refine and_congr_right fun hne => and_congr_right fun hp => ?_
  have hpos := List.length_pos_iff.2 hne
  omega

/-! ## The folder that counts -/

/-- There is only one first place. -/
theorem IsFirstPlace.eq (hm : IsFirstPlace dirs path m) (hn : IsFirstPlace dirs path n) :
    m = n := by
  obtain ⟨d, hd, hs⟩ := hm.stands
  obtain ⟨d', hd', hs'⟩ := hn.stands
  exact Nat.le_antisymm (hm.first d' hd' n hs') (hn.first d hd m hs)

/-- Where folders stand, one place is the first. -/
theorem exists_isFirstPlace (h : ∃ dir ∈ dirs, ∃ m, StandsAt dir path m) :
    ∃ n, IsFirstPlace dirs path n := by
  have hex : ∃ n, ∃ dir ∈ dirs, StandsAt dir path n := by
    obtain ⟨dir, hd, n, hs⟩ := h
    exact ⟨n, dir, hd, hs⟩
  classical
  exact ⟨Nat.find hex, Nat.find_spec hex, fun dir hd m hs => Nat.find_min' hex ⟨dir, hd, hs⟩⟩

/-- The folder that counts is configured. -/
theorem Counts.mem (h : Counts config path before dir after n) : dir ∈ config.allDirs := by
  rw [h.dirs_eq]
  exact List.mem_append_right _ List.mem_cons_self

/-- The folder that counts is the first of all unless one configured behind stands in front. -/
theorem Counts.isFirstPlace_iff (h : Counts config path before dir after n) :
    IsFirstPlace config.allDirs path n ↔ ∀ d ∈ after, ∀ m, StandsAt d path m → n ≤ m := by
  refine ⟨fun hn d hd => hn.first d ?_, fun hafter => ⟨⟨dir, h.mem, h.stands⟩, ?_⟩⟩
  · rw [h.dirs_eq]
    exact List.mem_append_right _ (List.mem_cons_of_mem _ hd)
  · rw [h.dirs_eq]
    intro d hd m hs
    rcases List.mem_append.1 hd with hd | hd
    · exact absurd hs (h.none_before d hd m)
    · rcases List.mem_cons.1 hd with rfl | hd
      · exact h.first m hs
      · exact hafter d hd m hs

/-- The front is the first one exactly if no folder configured behind stands further in front. -/
theorem Counts.eq_first_iff (h : Counts config path before dir after n) :
    (∀ m, IsFirstPlace config.allDirs path m → frontOf path n = frontOf path m) ↔
      ∀ d ∈ after, ∀ m, StandsAt d path m → n ≤ m := by
  rw [← h.isFirstPlace_iff]
  refine ⟨fun hall => ?_, fun hn m hm => by rw [hm.eq hn]⟩
  obtain ⟨m, hm⟩ := exists_isFirstPlace ⟨dir, h.mem, n, h.stands⟩
  obtain ⟨d, -, hd⟩ := hm.stands
  have hn := h.stands.add_le
  have hd := hd.add_le
  obtain rfl := eq_of_frontOf_eq (by omega) (by omega) (hall m hm)
  exact hm

/-- The front is free of folders exactly if none configured behind stands in it as a whole. -/
theorem Counts.free_iff (h : Counts config path before dir after n) :
    (∀ d ∈ config.allDirs, ∀ m, ¬StandsAt d (frontOf path n) m) ↔
      ∀ d ∈ after, ∀ m, StandsAt d path m → n < m + (segments d).length := by
  simp only [standsAt_frontOf, not_and, Nat.not_le, h.dirs_eq]
  refine ⟨fun hall d hd => hall d (List.mem_append_right _ (List.mem_cons_of_mem _ hd)), ?_⟩
  intro hafter d hd m hs
  rcases List.mem_append.1 hd with hd | hd
  · exact absurd hs (h.none_before d hd m)
  · rcases List.mem_cons.1 hd with rfl | hd
    · have hpos := List.length_pos_iff.2 hs.1
      have := h.first m hs
      omega
    · exact hafter d hd m hs

/-! ## The module -/

/-- The path cut at the first of the folders that stands in it. -/
def cutAtFirst? (dirs : List String) (path : String) : Option (List String × List String) :=
  dirs.findSome? fun d => splitAtFolder? (segments d) (segments path)

/-- The module is what the first configured folder that stands in the path cuts off. -/
theorem moduleOf_eq (hl : Layout.ofConfig config = .ok l) :
    l.moduleOf path =
      ((cutAtFirst? config.allDirs path).map fun parts => "/".intercalate parts.1).getD "" := by
  obtain ⟨hsource, htest, -⟩ := ofConfig_eq_ok hl
  have hcut : (l.sourceDirs ++ l.testDirs).findSome? (splitAtFolder? · (segments path)) =
      cutAtFirst? config.allDirs path := by
    rw [hsource, htest, ← List.map_append, List.findSome?_map, Function.comp_def, cutAtFirst?,
      Config.allDirs]
  rw [Layout.moduleOf, hcut]
  cases cutAtFirst? config.allDirs path <;> rfl

/-- The folder that counts for the module is there where any folder is. -/
theorem exists_counts (h : ∃ dir ∈ config.allDirs, ∃ m, StandsAt dir path m) :
    ∃ before dir after n, Counts config path before dir after n := by
  obtain ⟨d, hd, m, hm⟩ := h
  have hsome : (cutAtFirst? config.allDirs path).isSome = true :=
    List.findSome?_isSome_iff.2 ⟨d, hd, isSome_splitAtFolder? hm.1 hm.segments_isInfix⟩
  obtain ⟨⟨front, rest⟩, hs⟩ := Option.isSome_iff_exists.1 hsome
  obtain ⟨before, dir, after, he, hs, hbefore⟩ := List.findSome?_eq_some_iff.1 hs
  obtain ⟨-, hstands, hfirst⟩ := splitAtFolder?_eq_some hs
  exact ⟨before, dir, after, front.length, he,
    fun d hd => splitAtFolder?_eq_none.1 (hbefore d hd), hstands, hfirst⟩

/-- The module is the front that the folder that counts cuts off. -/
theorem Counts.moduleOf_eq_frontOf (hl : Layout.ofConfig config = .ok l)
    (h : Counts config path before dir after n) : l.moduleOf path = frontOf path n := by
  obtain ⟨⟨front, rest⟩, hs⟩ :=
    Option.isSome_iff_exists.1 (isSome_splitAtFolder? h.stands.1 h.stands.segments_isInfix)
  obtain ⟨hfront, hstands, hfirst⟩ := splitAtFolder?_eq_some hs
  obtain rfl : n = front.length := Nat.le_antisymm (h.first _ hstands) (hfirst _ h.stands)
  have hcut : cutAtFirst? config.allDirs path = some (front, rest) :=
    List.findSome?_eq_some_iff.2 ⟨before, dir, after, h.dirs_eq, hs,
      fun d hd => splitAtFolder?_eq_none.2 (h.none_before d hd)⟩
  rw [moduleOf_eq hl, hcut, Option.map_some, Option.getD_some, frontOf, ← hfront]

/-- A path without a configured folder has no module. In any other path one of the folders counts,
and the module is what stands in front of it. This is the front of all folders, and free of them,
just as far as the folders configured behind that one leave it so. -/
theorem moduleOf_isFront (hl : Layout.ofConfig config = .ok l) (path : String) :
    ((∀ dir ∈ config.allDirs, ∀ m, ¬StandsAt dir path m) → l.moduleOf path = "") ∧
      ((∃ dir ∈ config.allDirs, ∃ m, StandsAt dir path m) →
        ∃ before dir after n, Counts config path before dir after n) ∧
      ∀ before dir after n, Counts config path before dir after n →
        IsFront config path after n (l.moduleOf path) := by
  refine ⟨fun hnone => ?_, exists_counts, fun before dir after n h => ?_⟩
  · have hcut : cutAtFirst? config.allDirs path = none :=
      List.findSome?_eq_none_iff.2 fun d hd => splitAtFolder?_eq_none.2 (hnone d hd)
    rw [moduleOf_eq hl, hcut, Option.map_none, Option.getD_none]
  · rw [h.moduleOf_eq_frontOf hl]
    exact ⟨rfl, h.eq_first_iff, h.free_iff⟩

end

/-! ## A test folder in front of a source folder -/

/-- A project with one source folder and one test folder. -/
def twoDirs : Config := { sourceDirs := ["main"], testDirs := ["test"], excludePaths := [] }

/-- The layout of this project. -/
def twoDirsLayout : Layout := ⟨[["main"]], [["test"]], []⟩

/-- A source folder inside a test folder. -/
def nestedPath : String := "test/x/main/A.java"

/-- The configuration of the example has a layout. -/
theorem ofConfig_twoDirs : Layout.ofConfig twoDirs = .ok twoDirsLayout := by
  have hs : segments "main" = ["main"] ∧ segments "test" = ["test"] := by decide +kernel
  rw [twoDirsLayout, ← hs.1, ← hs.2]
  rfl

/-- In the path of the example, the folder configured first counts. -/
theorem counts_nestedPath : Counts twoDirs nestedPath [] "main" ["test"] 2 where
  dirs_eq := rfl
  none_before := List.forall_mem_nil _
  stands := by decide +kernel
  first := by
    have hno : ∀ m < 2, ¬StandsAt "main" nestedPath m := by decide +kernel
    exact fun m hm => Nat.not_lt.1 fun hlt => hno m hlt hm

/-- The source folder counts, and the module is not free of the test folder around it. -/
theorem moduleOf_isFront_nestedPath :
    Layout.ofConfig twoDirs = .ok twoDirsLayout ∧
      Counts twoDirs nestedPath [] "main" ["test"] 2 ∧
      IsFront twoDirs nestedPath ["test"] 2 (twoDirsLayout.moduleOf nestedPath) ∧
      ¬∀ d ∈ twoDirs.allDirs, ∀ m, ¬StandsAt d (twoDirsLayout.moduleOf nestedPath) m := by
  obtain ⟨-, -, hfront⟩ := moduleOf_isFront ofConfig_twoDirs nestedPath
  have h := hfront _ _ _ _ counts_nestedPath
  refine ⟨ofConfig_twoDirs, counts_nestedPath, h, fun hfree => ?_⟩
  have hlt := h.free_iff.1 hfree "test" (List.mem_singleton_self _) 0 (by decide +kernel)
  exact absurd hlt (by decide +kernel)

/-- A folder stands at the start of the path, and the module is not what stands in front of it: the
folder stands in the module. -/
theorem exists_module_with_folder :
    ∃ l, Layout.ofConfig twoDirs = .ok l ∧ IsFirstPlace twoDirs.allDirs nestedPath 0 ∧
      frontOf nestedPath 0 = "" ∧ l.moduleOf nestedPath = "test/x" ∧
      StandsAt "test" (l.moduleOf nestedPath) 0 := by
  have hfirst : IsFirstPlace twoDirs.allDirs nestedPath 0 :=
    ⟨⟨"test", by decide, by decide +kernel⟩, fun _ _ m _ => Nat.zero_le m⟩
  have hfront : frontOf nestedPath 2 = "test/x" := by decide +kernel
  have hmodule := (counts_nestedPath.moduleOf_eq_frontOf ofConfig_twoDirs).trans hfront
  exact ⟨_, ofConfig_twoDirs, hfirst, rfl, hmodule, hmodule ▸ by decide +kernel⟩

end TestImpact
