import Mathlib.Data.List.Perm.Subperm
import TestImpact.Proofs.Selection.Monotone
import TestImpact.Proofs.Selection.Settings

/-!
# Tests of dependents, level by level

Level `k` of a search through the dependency graph holds the classes that a shortest chain of `k`
dependencies leads to (`mem_levelAt`). The transitive strategy selects by name and by use for every
level from 1 up to its depth, and for nothing else, whatever the depth is
(`byDependency_selectsByLevel`). Two things about the levels make the depth harmless: a dependency
that leads back, as one in every cycle does, changes no level (`KeepsForward.levelAt_eq`), and
levels are apart and made of production classes, so that there are no more of them than production
classes (`le_of_mem_levelAt`).
-/

namespace TestImpact.Selection

open DependencyGraph

/-- The classes that a search has met after `n` rounds, and those that it met last. -/
def searched (g : DependencyGraph) (start : NameSet) : Nat → NameSet × NameSet
  | 0 => (start, start)
  | n + 1 =>
    let next := nextLevel g (searched g start n).1 (searched g start n).2
    ((searched g start n).1.union next, next)

/-- The classes that a search meets in round `n`. -/
def levelAt (g : DependencyGraph) (start : NameSet) (n : Nat) : NameSet := (searched g start n).2

/-- `part` is a part of the graph `g` that has all dependencies from one distance to the next. -/
structure KeepsForward (g part : DependencyGraph) (start : NameSet) : Prop where
  mem_dependentsOf : ∀ f x, x ∈ part.dependentsOf f → x ∈ g.dependentsOf f
  forward : ∀ n f x, AtDistance g start n f → AtDistance g start (n + 1) x →
    x ∈ g.dependentsOf f → x ∈ part.dependentsOf f

/-- The transitive strategy selects level by level. -/
structure SelectsByLevel (c : Catalogue) (suffixes : List String) (changed : NameSet)
    (level : Nat → NameSet) : Prop where
  /-- A level holds the classes of one distance from the changed ones. -/
  mem_level : ∀ k x, x ∈ level k ↔ AtDistance (.ofCatalogue c) changed k x
  /-- Up to the depth, every level selects by name and by use. -/
  mem_byDependency : ∀ depth t, t ∈ byDependency depth suffixes changed c ↔
    ∃ k, 1 ≤ k ∧ k ≤ depth ∧ (t ∈ byName suffixes (level k) c ∨ t ∈ byUse (level k) c)
  /-- The changed classes themselves are in none of these levels. -/
  not_changed : ∀ k x, 1 ≤ k → x ∈ level k → x ∉ changed
  /-- However often a cycle leads back to a class, it is in one level. -/
  unique : ∀ j k x, x ∈ level j → x ∈ level k → j = k
  /-- Without the dependencies that lead back, all levels are the same. -/
  forwardOnly : ∀ part, KeepsForward (.ofCatalogue c) part changed →
    ∀ k, levelAt part changed k = level k
  mono : ∀ m n, m ≤ n → byDependency m suffixes changed c ⊆ byDependency n suffixes changed c
  /-- At the number of production classes the selection is complete. -/
  complete : ∀ depth, c.production.size ≤ depth →
    byDependency depth suffixes changed c =
      byDependency c.production.size suffixes changed c

section
variable {g part : DependencyGraph} {start : NameSet} {x : String} {j k n : Nat}

/-! ## Levels -/

/-- After `n` levels all distances up to `n` have been searched. -/
theorem searchedTo_searched (n : Nat) :
    SearchedTo g start n (searched g start n).1 (searched g start n).2 := by
  induction n with
  | zero => exact .init
  | succ n ih => exact ih.next

/-- The levels are the distances. -/
theorem mem_levelAt : x ∈ levelAt g start n ↔ AtDistance g start n x :=
  (searchedTo_searched n).mem_frontier x

/-- A class has one distance. -/
theorem AtDistance.unique (hj : AtDistance g start j x) (hk : AtDistance g start k x) : j = k := by
  have h1 : ¬j < k := fun h => hk.2 j h hj.1
  have h2 : ¬k < j := fun h => hj.2 k h hk.1
  omega

/-- A level that the search goes through is the set of the classes at its distance. -/
theorem eq_levelAt_of_getElem? {depth i : Nat} {level : NameSet} (hi : i < depth)
    (h : (levels g start start depth)[i]? = some level) : level = levelAt g start (i + 1) := by
  refine NameSet.ext_mem fun x => ?_
  have hinit : SearchedTo g start 0 start start := .init
  have hm : (∃ l, (levels g start start depth)[i]? = some l ∧ x ∈ l) ↔
      i < depth ∧ AtDistance g start (0 + 1 + i) x := hinit.mem_levels
  simp only [h, Option.some.injEq, exists_eq_left', hi, true_and] at hm
  rw [hm, mem_levelAt, show 0 + 1 + i = i + 1 by omega]

/-- What holds of some level of the search with classes in it holds of some distance, and the other
way round. -/
theorem exists_mem_levels_iff {depth : Nat} {p : NameSet → Prop} (hp : ∀ l, p l → ∃ f, f ∈ l) :
    (∃ level ∈ levels g start start depth, p level) ↔
      ∃ k, 1 ≤ k ∧ k ≤ depth ∧ p (levelAt g start k) := by
  refine ⟨?_, ?_⟩
  · rintro ⟨level, hl, hlevel⟩
    obtain ⟨i, hi⟩ := List.mem_iff_getElem?.1 hl
    obtain ⟨f, hf⟩ := hp level hlevel
    obtain ⟨hlt, -⟩ := SearchedTo.init.mem_levels.1 ⟨level, hi, hf⟩
    refine ⟨i + 1, by omega, hlt, ?_⟩
    rwa [← eq_levelAt_of_getElem? hlt hi]
  · rintro ⟨k, h1, hk, hlevel⟩
    obtain ⟨i, rfl⟩ : ∃ i, k = i + 1 := ⟨k - 1, by omega⟩
    obtain ⟨f, hf⟩ := hp _ hlevel
    have hd : i < depth ∧ AtDistance g start (0 + 1 + i) f := by
      refine ⟨hk, ?_⟩
      rw [show 0 + 1 + i = i + 1 by omega]
      exact mem_levelAt.1 hf
    obtain ⟨level, hi, -⟩ := SearchedTo.init.mem_levels.2 hd
    refine ⟨level, List.mem_iff_getElem?.2 ⟨i, hi⟩, ?_⟩
    rwa [eq_levelAt_of_getElem? hk hi]

/-! ## Cycles -/

/-- Chains of a part are chains of the graph. -/
theorem ReachedIn.of_part (hp : ∀ f x, x ∈ part.dependentsOf f → x ∈ g.dependentsOf f)
    (h : ReachedIn part start n x) : ReachedIn g start n x := by
  induction h with
  | start h => exact .start h
  | step _ hx ih => exact .step ih (hp _ _ hx)

/-- A shortest chain goes forward only. -/
theorem KeepsForward.reachedIn (h : KeepsForward g part start) (hd : AtDistance g start n x) :
    ReachedIn part start n x := by
  induction n generalizing x with
  | zero => exact .start (atDistance_zero.1 hd)
  | succ n ih =>
    obtain ⟨y, hy, hx⟩ := hd.pred
    exact .step (ih hy) (h.forward n y x hy hd hx)

/-- Dependencies that lead back, as one in every cycle does, change no distance. -/
theorem KeepsForward.atDistance_iff (h : KeepsForward g part start) :
    AtDistance part start n x ↔ AtDistance g start n x := by
  have hpart : ∀ {m}, AtDistance g start m x → AtDistance part start m x := fun hd =>
    ⟨h.reachedIn hd, fun m hm hr => hd.2 m hm (hr.of_part h.mem_dependentsOf)⟩
  refine ⟨fun hd => ?_, hpart⟩
  obtain ⟨m, -, hm⟩ := (hd.1.of_part h.mem_dependentsOf).exists_atDistance
  exact hd.unique (hpart hm) ▸ hm

/-- A part with all dependencies from one distance to the next has the same levels. -/
theorem KeepsForward.levelAt_eq (h : KeepsForward g part start) (n : Nat) :
    levelAt part start n = levelAt g start n :=
  NameSet.ext_mem fun x => by rw [mem_levelAt, mem_levelAt, h.atDistance_iff]

end

section
variable {c : Catalogue} {changed : NameSet} {suffixes : List String} {t x : String} {k : Nat}

/-! ## The number of levels -/

/-- If a class is at distance `k`, there are `k` classes at the distances from 1 to `k`. -/
theorem AtDistance.exists_nodup (h : AtDistance (.ofCatalogue c) changed k x) :
    ∃ ys : List String, ys.length = k ∧ ys.Nodup ∧
      ∀ y ∈ ys, ∃ m, 1 ≤ m ∧ m ≤ k ∧ AtDistance (.ofCatalogue c) changed m y := by
  induction k generalizing x with
  | zero => exact ⟨[], rfl, .nil, nofun⟩
  | succ k ih =>
    obtain ⟨y, hy, -⟩ := h.pred
    obtain ⟨ys, hlen, hnodup, hys⟩ := ih hy
    refine ⟨x :: ys, by rw [List.length_cons, hlen], List.nodup_cons.2 ⟨fun hx => ?_, hnodup⟩, ?_⟩
    · obtain ⟨m, -, hm, hd⟩ := hys x hx
      have := hd.unique h
      omega
    · intro z hz
      rcases List.mem_cons.1 hz with rfl | hz
      · exact ⟨k + 1, by omega, Nat.le_refl _, h⟩
      · obtain ⟨m, h1, hm, hd⟩ := hys z hz
        exact ⟨m, h1, by omega, hd⟩

/-- No class is farther away than there are production classes. -/
theorem le_of_mem_levelAt (h : x ∈ levelAt (.ofCatalogue c) changed k) :
    k ≤ c.production.size := by
  obtain ⟨ys, rfl, hnodup, hys⟩ := (mem_levelAt.1 h).exists_nodup
  have hsub : ys ⊆ c.production.values.map Java.ClassRecord.fqn := by
    intro y hy
    obtain ⟨m, h1, -, hd⟩ := hys y hy
    obtain ⟨p, hp, rfl⟩ := hd.mem_production h1
    exact List.mem_map_of_mem hp
  have hle := (hnodup.subperm hsub).length_le
  rwa [List.length_map, NameMap.values, List.length_map] at hle

/-! ## The selected tests -/

/-- A level that selects a test has a class in it. -/
theorem exists_mem_of_selects {level : NameSet}
    (h : t ∈ byName suffixes level c ∨ t ∈ byUse level c) : ∃ f, f ∈ level := by
  rcases h with h | h
  · obtain ⟨f, hf, -⟩ := mem_byName.1 h
    exact ⟨f, hf⟩
  · obtain ⟨r, -, -, -, f, hf, -⟩ := mem_byUse.1 h
    exact ⟨f, hf⟩

/-- What the strategy selects, by distances. -/
theorem mem_byDependency_iff {depth : Nat} :
    t ∈ byDependency depth suffixes changed c ↔
      ∃ k, 1 ≤ k ∧ k ≤ depth ∧
        (t ∈ byName suffixes (levelAt (.ofCatalogue c) changed k) c ∨
          t ∈ byUse (levelAt (.ofCatalogue c) changed k) c) := by
  rw [mem_byDependency]
  exact exists_mem_levels_iff fun _ hl => exists_mem_of_selects hl

/-- Beyond the number of production classes a larger depth selects nothing more. -/
theorem byDependency_complete {depth : Nat} (h : c.production.size ≤ depth) :
    byDependency depth suffixes changed c =
      byDependency c.production.size suffixes changed c := by
  refine NameSet.ext_mem fun t => ?_
  rw [mem_byDependency_iff, mem_byDependency_iff]
  refine ⟨?_, ?_⟩
  · rintro ⟨k, h1, -, ht⟩
    obtain ⟨f, hf⟩ := exists_mem_of_selects ht
    exact ⟨k, h1, le_of_mem_levelAt hf, ht⟩
  · rintro ⟨k, h1, hk, ht⟩
    exact ⟨k, h1, Nat.le_trans hk h, ht⟩

/-- In every catalogue, for every set of changed classes and every depth, the transitive strategy
selects the tests of the levels from 1 up to the depth. -/
theorem byDependency_selectsByLevel (c : Catalogue) (suffixes : List String) (changed : NameSet) :
    SelectsByLevel c suffixes changed (levelAt (.ofCatalogue c) changed) where
  mem_level _ _ := mem_levelAt
  mem_byDependency _ _ := mem_byDependency_iff
  not_changed _ _ h1 hx hm := (mem_levelAt.1 hx).2 0 h1 (.start hm)
  unique _ _ _ hj hk := (mem_levelAt.1 hj).unique (mem_levelAt.1 hk)
  forwardOnly _ hp k := hp.levelAt_eq k
  mono _ _ h := byDependency_of_le h fun _ hs => hs
  complete _ h := byDependency_complete h

end

/-! ## Levels of a cycle -/

/-- Two classes that hold each other, a class that holds the second one, and its test. -/
def cycleRecords : List Java.ClassRecord :=
  [("A", .production, "class A \x7b B b; \x7d"), ("B", .production, "class B \x7b A a; \x7d"),
    ("C", .production, "class C \x7b B b; \x7d"),
    ("CTest", .test, "class CTest \x7b \x7d")].filterMap fun (fqn, kind, text) =>
      (Java.ClassRecord.read text ⟨fqn⟩ fqn kind).toOption

/-- Behind `A` the first level is `B` and the second one `C`, though the cycle leads back to `A`. -/
example :
    ([0, 1, 2, 3].map fun k =>
        (levelAt (.ofCatalogue (.ofRecords cycleRecords)) (.ofList ["A"]) k).toList) =
      [["A"], ["B"], ["C"], []] := by
  decide +kernel

/-- So the test of `C` is selected at depth 2 and not at depth 1. -/
example :
    byDependency 1 ["Test"] (.ofList ["A"]) (.ofRecords cycleRecords) = .empty ∧
      byDependency 2 ["Test"] (.ofList ["A"]) (.ofRecords cycleRecords) = .ofList ["CTest"] := by
  decide +kernel

end TestImpact.Selection
