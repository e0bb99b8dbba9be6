/-!
# Sorted sets of names

A `NameSet` is a list of strings in strictly increasing code-point order. The order is a part of the
type, so two sets with the same members are equal (`NameSet.ext_mem`), and every operation is
described by what it does to membership (`mem_insert`, `mem_union`, `mem_ofList`, `mem_filter`).
-/

namespace TestImpact

/-- A set of strings, listed in strictly increasing code-point order. -/
structure NameSet where
  /-- The members in order. -/
  toList : List String
  sorted : toList.Pairwise (· < ·) := by decide
deriving DecidableEq, Repr

namespace NameSet

/-- Puts `x` at its place in a sorted list, unless it is there already. -/
def place (x : String) : List String → List String
  | [] => [x]
  | y :: ys => if x < y then x :: y :: ys else if x = y then y :: ys else y :: place x ys

/-- The members are the new name and those that were there. -/
theorem mem_place {x z : String} {ys : List String} : z ∈ place x ys ↔ z = x ∨ z ∈ ys := by
  induction ys with
  | nil => simp [place]
  | cons y ys ih =>
    rw [place]
    split
    · simp
    · split
      · next h => subst h; simp
      · simp [ih, or_left_comm]

/-- The names stay in order, each once. -/
theorem pairwise_place {x : String} {ys : List String} (h : ys.Pairwise (· < ·)) :
    (place x ys).Pairwise (· < ·) := by
  induction ys with
  | nil => simp [place]
  | cons y ys ih =>
    obtain ⟨hy, hys⟩ := List.pairwise_cons.1 h
    rw [place]
    split
    · next hxy =>
      refine List.pairwise_cons.2 ⟨fun z hz => ?_, h⟩
      rcases List.mem_cons.1 hz with rfl | hz
      · exact hxy
      · exact String.lt_trans hxy (hy z hz)
    · next hxy =>
      split
      · exact h
      · next hne =>
        refine List.pairwise_cons.2 ⟨fun z hz => ?_, ih hys⟩
        rcases mem_place.1 hz with rfl | hz
        · exact Std.lt_of_le_of_ne (String.not_lt.1 hxy) (Ne.symm hne)
        · exact hy z hz

instance : Membership String NameSet := ⟨fun s x => x ∈ s.toList⟩

instance : HasSubset NameSet := ⟨fun s t => ∀ ⦃x⦄, x ∈ s → x ∈ t⟩

instance (x : String) (s : NameSet) : Decidable (x ∈ s) :=
  inferInstanceAs (Decidable (x ∈ s.toList))

@[simp] theorem mem_toList {x : String} {s : NameSet} : x ∈ s.toList ↔ x ∈ s := .rfl

/-- The set without members. -/
def empty : NameSet := ⟨[], .nil⟩

/-- The set with `x` as a further member. -/
def insert (x : String) (s : NameSet) : NameSet := ⟨place x s.toList, pairwise_place s.sorted⟩

/-- The set with the listed strings as further members. -/
def insertAll (xs : List String) (s : NameSet) : NameSet := xs.foldl (fun s x => s.insert x) s

/-- The set of the listed strings. -/
def ofList (xs : List String) : NameSet := empty.insertAll xs

/-- The members of either set. -/
def union (s t : NameSet) : NameSet := s.insertAll t.toList

/-- The members that satisfy `p`. -/
def filter (p : String → Bool) (s : NameSet) : NameSet := ⟨s.toList.filter p, s.sorted.filter p⟩

/-- The set has no members. -/
def isEmpty (s : NameSet) : Bool := s.toList.isEmpty

/-- The number of members. -/
def size (s : NameSet) : Nat := s.toList.length

@[simp] theorem not_mem_empty {x : String} : x ∉ empty := List.not_mem_nil

@[simp] theorem mem_insert {x y : String} {s : NameSet} : y ∈ s.insert x ↔ y = x ∨ y ∈ s :=
  mem_place

@[simp] theorem mem_insertAll {y : String} {xs : List String} {s : NameSet} :
    y ∈ s.insertAll xs ↔ y ∈ xs ∨ y ∈ s := by
  induction xs generalizing s with
  | nil => simp [insertAll]
  | cons x xs ih =>
    rw [insertAll, List.foldl_cons]
    exact (ih (s := s.insert x)).trans (by simp [or_left_comm, or_assoc])

@[simp] theorem mem_ofList {y : String} {xs : List String} : y ∈ ofList xs ↔ y ∈ xs := by
  simp [ofList]

@[simp] theorem mem_union {y : String} {s t : NameSet} : y ∈ s.union t ↔ y ∈ s ∨ y ∈ t := by
  rw [union, mem_insertAll, or_comm]; rfl

@[simp] theorem mem_filter {y : String} {p : String → Bool} {s : NameSet} :
    y ∈ s.filter p ↔ y ∈ s ∧ p y = true := List.mem_filter

/-- Sets with the same members are equal. -/
theorem ext_mem {s t : NameSet} (h : ∀ x, x ∈ s ↔ x ∈ t) : s = t := by
  obtain ⟨xs, hx⟩ := s
  obtain ⟨ys, hy⟩ := t
  have hperm : xs.Perm ys :=
    (List.perm_ext_iff_of_nodup (hx.imp String.ne_of_lt) (hy.imp String.ne_of_lt)).2 h
  have hanti : ∀ x y : String, x ∈ xs → y ∈ ys → x < y → y < x → x = y := fun _ _ _ _ hxy hyx =>
    absurd (String.lt_trans hxy hyx) (String.lt_irrefl _)
  cases hperm.eq_of_pairwise hanti hx hy
  rfl

/-- Only the empty set has no members. -/
theorem isEmpty_iff {s : NameSet} : s.isEmpty = true ↔ s = empty := by
  refine ⟨fun h => ext_mem fun x => ?_, fun h => h ▸ rfl⟩
  rw [← mem_toList, List.isEmpty_iff.1 h]
  exact ⟨fun hx => absurd hx List.not_mem_nil, fun hx => absurd hx not_mem_empty⟩

end NameSet

end TestImpact
