import TestImpact.Selection.Transitive

/-!
# Distances in the dependency graph

`levels` is a breadth-first search. Its levels are distances: the classes of level `k` are those
that a shortest chain of `k` dependencies leads to from a changed class (`mem_levels_iff`). The
invariant of the search is that the classes it has met are those within the current distance and
its frontier holds those at it. From the distances follows what a further changed class does to the
levels: a class may come nearer, but it never gets lost (`AtDistance.of_subset`).
-/

namespace TestImpact.Selection

open DependencyGraph

/-- A chain of exactly `n` dependencies leads from a class of `start` to `x`. -/
inductive ReachedIn (g : DependencyGraph) (start : NameSet) : Nat → String → Prop
  | start : x ∈ start → ReachedIn g start 0 x
  | step : ReachedIn g start n y → x ∈ g.dependentsOf y → ReachedIn g start (n + 1) x

/-- The shortest chain of dependencies from a class of `start` to `x` has the length `n`. -/
def AtDistance (g : DependencyGraph) (start : NameSet) (n : Nat) (x : String) : Prop :=
  ReachedIn g start n x ∧ ∀ m < n, ¬ReachedIn g start m x

/-- What the search knows after `n` rounds: it has met the classes within distance `n`, and its
frontier holds those at distance `n`. -/
structure SearchedTo (g : DependencyGraph) (start : NameSet) (n : Nat) (met frontier : NameSet) :
    Prop where
  mem_met : ∀ x, x ∈ met ↔ ∃ m ≤ n, ReachedIn g start m x
  mem_frontier : ∀ x, x ∈ frontier ↔ AtDistance g start n x

section
variable {g : DependencyGraph} {start larger met frontier : NameSet} {x y : String} {n k : Nat}

/-! ## Chains -/

/-- A chain of length 0 goes nowhere. -/
theorem reachedIn_zero : ReachedIn g start 0 x ↔ x ∈ start :=
  ⟨fun h => by cases h with | start h => exact h, .start⟩

/-- A longer chain ends in one more dependency. -/
theorem reachedIn_succ :
    ReachedIn g start (n + 1) x ↔ ∃ y, ReachedIn g start n y ∧ x ∈ g.dependentsOf y := by
  refine ⟨?_, ?_⟩
  · intro h
    cases h with
    | step hy hx => exact ⟨_, hy, hx⟩
  · rintro ⟨y, hy, hx⟩
    exact .step hy hx

/-- Chains from fewer classes are chains from more classes. -/
theorem ReachedIn.mono (hs : start ⊆ larger) (h : ReachedIn g start n x) :
    ReachedIn g larger n x := by
  induction h with
  | start h => exact .start (hs h)
  | step _ hx ih => exact .step ih hx

/-- A class that is reached has a distance, which no chain undercuts. -/
theorem ReachedIn.exists_atDistance (h : ReachedIn g start n x) :
    ∃ m ≤ n, AtDistance g start m x := by
  induction n using Nat.strongRecOn with
  | ind n ih =>
    by_cases hs : ∃ m < n, ReachedIn g start m x
    · obtain ⟨m, hm, hr⟩ := hs
      obtain ⟨k, hk, hd⟩ := ih m hm hr
      exact ⟨k, Nat.le_trans hk (Nat.le_of_lt hm), hd⟩
    · exact ⟨n, Nat.le_refl n, h, fun m hm hr => hs ⟨m, hm, hr⟩⟩

/-! ## Distances -/

/-- The classes at distance 0 are those the chains start from. -/
theorem atDistance_zero : AtDistance g start 0 x ↔ x ∈ start := by
  rw [AtDistance, reachedIn_zero]
  exact ⟨fun h => h.1, fun h => ⟨h, fun m hm => absurd hm (Nat.not_lt_zero m)⟩⟩

/-- The last dependency of a shortest chain starts from a class that is nearer by one. -/
theorem AtDistance.pred (h : AtDistance g start (n + 1) x) :
    ∃ y, AtDistance g start n y ∧ x ∈ g.dependentsOf y := by
  obtain ⟨y, hy, hx⟩ := reachedIn_succ.1 h.1
  exact ⟨y, ⟨hy, fun m hm hr => h.2 (m + 1) (by omega) (.step hr hx)⟩, hx⟩

/-- If some class is at a distance, every smaller distance is taken too. -/
theorem AtDistance.exists_of_le (h : AtDistance g start n x) (hk : k ≤ n) :
    ∃ y, AtDistance g start k y := by
  induction n generalizing x with
  | zero => exact ⟨x, (Nat.le_zero.1 hk) ▸ h⟩
  | succ n ih =>
    rcases Nat.lt_or_ge n k with hlt | hge
    · exact ⟨x, (show k = n + 1 by omega) ▸ h⟩
    · obtain ⟨y, hy, -⟩ := h.pred
      exact ih hy hge

/-- With more classes to start from, a class is as near as before or nearer. -/
theorem AtDistance.of_subset (hs : start ⊆ larger) (h : AtDistance g start n x) :
    x ∈ larger ∨ ∃ m, 1 ≤ m ∧ m ≤ n ∧ AtDistance g larger m x := by
  obtain ⟨m, hm, hd⟩ := (h.1.mono hs).exists_atDistance
  cases m with
  | zero => exact .inl (atDistance_zero.1 hd)
  | succ m => exact .inr ⟨m + 1, by omega, hm, hd⟩

/-! ## The search -/

/-- The search starts with the classes at distance 0. -/
theorem SearchedTo.init : SearchedTo g start 0 start start where
  mem_met x := by
    refine ⟨?_, ?_⟩
    · exact fun h => ⟨0, Nat.le_refl 0, .start h⟩
    · rintro ⟨m, hm, hr⟩
      obtain rfl := Nat.le_zero.1 hm
      exact reachedIn_zero.1 hr
  mem_frontier _ := atDistance_zero.symm

/-- The next level depends on the frontier and has not been met. -/
theorem mem_nextLevel :
    x ∈ nextLevel g met frontier ↔ (∃ f ∈ frontier, x ∈ g.dependentsOf f) ∧ x ∉ met := by
  simp [nextLevel]

/-- A round finds the classes at the next distance. -/
theorem SearchedTo.mem_nextLevel (h : SearchedTo g start n met frontier) :
    x ∈ nextLevel g met frontier ↔ AtDistance g start (n + 1) x := by
  rw [Selection.mem_nextLevel, h.mem_met]
  refine ⟨?_, ?_⟩
  · rintro ⟨⟨f, hf, hx⟩, hnew⟩
    have hr := ((h.mem_frontier f).1 hf).1
    exact ⟨.step hr hx, fun m hm hm' => hnew ⟨m, by omega, hm'⟩⟩
  · intro hd
    obtain ⟨f, hf, hx⟩ := hd.pred
    refine ⟨⟨f, (h.mem_frontier f).2 hf, hx⟩, ?_⟩
    rintro ⟨m, hm, hr⟩
    exact hd.2 m (by omega) hr

/-- A round takes the search one step further. -/
theorem SearchedTo.next (h : SearchedTo g start n met frontier) :
    SearchedTo g start (n + 1) (met.union (nextLevel g met frontier))
      (nextLevel g met frontier) where
  mem_met x := by
    rw [NameSet.mem_union, h.mem_met, h.mem_nextLevel]
    refine ⟨?_, ?_⟩
    · rintro (⟨m, hm, hr⟩ | hd)
      · exact ⟨m, by omega, hr⟩
      · exact ⟨n + 1, Nat.le_refl _, hd.1⟩
    · rintro ⟨m, hm, hr⟩
      obtain ⟨k, hk, hd⟩ := hr.exists_atDistance
      rcases Nat.lt_or_ge n k with hlt | hge
      · exact .inr ((show k = n + 1 by omega) ▸ hd)
      · exact .inl ⟨k, hge, hd.1⟩
  mem_frontier _ := h.mem_nextLevel

/-- The levels behind the frontier are the further distances in order. -/
theorem SearchedTo.mem_levels (h : SearchedTo g start n met frontier) {depth i : Nat} :
    (∃ level, (levels g met frontier depth)[i]? = some level ∧ x ∈ level) ↔
      i < depth ∧ AtDistance g start (n + 1 + i) x := by
  induction depth generalizing n met frontier i with
  | zero => simp [levels]
  | succ depth ih =>
    rw [levels]
    by_cases hempty : (nextLevel g met frontier).isEmpty = true
    · -- An empty level ends the search: no class is at this distance, so none is further away.
      have hnone : ∀ y, ¬AtDistance g start (n + 1) y := fun y hy => by
        have hmem : y ∈ (nextLevel g met frontier).toList := h.mem_nextLevel.2 hy
        rw [List.isEmpty_iff.1 hempty] at hmem
        exact List.not_mem_nil hmem
      simp only [hempty, if_true, List.getElem?_nil, reduceCtorEq, false_and, exists_false,
        false_iff, not_and]
      intro _ hd
      obtain ⟨y, hy⟩ := hd.exists_of_le (k := n + 1) (by omega)
      exact hnone y hy
    · rw [if_neg hempty]
      cases i with
      | zero =>
        simp only [List.getElem?_cons_zero, Option.some.injEq, exists_eq_left', Nat.add_zero]
        exact h.mem_nextLevel.trans ⟨fun hd => ⟨Nat.succ_pos _, hd⟩, fun hd => hd.2⟩
      | succ i =>
        rw [List.getElem?_cons_succ, ih h.next, Nat.succ_lt_succ_iff,
          show n + 1 + 1 + i = n + 1 + (i + 1) by omega]

/-- The levels of a search are the distances from 1 up to the depth. -/
theorem mem_levels_iff {depth : Nat} :
    (∃ level ∈ levels g start start depth, x ∈ level) ↔
      ∃ m, 1 ≤ m ∧ m ≤ depth ∧ AtDistance g start m x := by
  refine ⟨?_, ?_⟩
  · rintro ⟨level, hl, hx⟩
    obtain ⟨i, hi⟩ := List.mem_iff_getElem?.1 hl
    obtain ⟨hlt, hd⟩ := SearchedTo.init.mem_levels.1 ⟨level, hi, hx⟩
    exact ⟨0 + 1 + i, by omega, by omega, hd⟩
  · rintro ⟨m, h1, hm, hd⟩
    have hs : SearchedTo g start 0 start start := .init
    have hm' : m - 1 < depth ∧ AtDistance g start (0 + 1 + (m - 1)) x :=
      ⟨by omega, by rwa [show 0 + 1 + (m - 1) = m by omega]⟩
    obtain ⟨level, hi, hx⟩ := hs.mem_levels.2 hm'
    exact ⟨level, List.mem_iff_getElem?.2 ⟨m - 1, hi⟩, hx⟩

end

end TestImpact.Selection
