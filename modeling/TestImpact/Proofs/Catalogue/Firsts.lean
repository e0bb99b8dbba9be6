import Mathlib.Data.List.Induction
import TestImpact.Proofs.Catalogue.Records

/-!
# First records and duplicates

A catalogue is kept in three maps and a counter that change together with every record. Main
statement: after any records, in any order and with any repetitions, it holds of each kind and name
the first record and has counted all others, so that all of them add up, and by a simple name it
lists the tests that have it, each once and in the order of their first records
(`ofRecords_holdsFirsts`).
-/

namespace TestImpact

open Java (ClassRecord SourceKind)

namespace Catalogue

/-- The records are of one kind and have one name. -/
def SameClass (q r : ClassRecord) : Prop := q.kind = r.kind ∧ q.fqn = r.fqn

instance {q r : ClassRecord} : Decidable (SameClass q r) := inferInstanceAs (Decidable (_ ∧ _))

/-- The number of records that have another one of their kind and name in front. -/
def repetitions (rs : List ClassRecord) : Nat :=
  rs.zipIdx.countP fun p => (rs.take p.2).any fun q => SameClass q p.1

/-- The place of the first test of the name. -/
def firstTestAt (rs : List ClassRecord) (fqn : String) : Nat :=
  rs.findIdx fun r => r.kind = .test ∧ r.fqn = fqn

/-- The catalogue holds the first ones of the records and has counted the others. -/
structure HoldsFirsts (c : Catalogue) (rs : List ClassRecord) : Prop where
  find?_eq : ∀ kind fqn, (c.of kind).find? fqn = rs.find? fun r => r.kind = kind ∧ r.fqn = fqn
  duplicates_eq : c.duplicates = repetitions rs
  size_eq : c.production.size + c.tests.size + c.duplicates = rs.length
  /-- By a simple name exactly the tests are listed that have it. -/
  mem_testsNamed : ∀ simple fqn, fqn ∈ c.testsNamed simple ↔
    ∃ r, c.tests.find? fqn = some r ∧ r.simpleName = simple
  nodup_testsNamed : ∀ simple, (c.testsNamed simple).Nodup
  /-- They are listed in the order of their first records. -/
  inOrder : ∀ simple,
    (c.testsNamed simple).Pairwise fun a b => firstTestAt rs a < firstTestAt rs b

section
variable {c : Catalogue} {r : ClassRecord} {rs : List ClassRecord}
  {fqn simple : String}

/-- One record more is added behind the others. -/
theorem ofRecords_concat : ofRecords (rs ++ [r]) = (ofRecords rs).add r :=
  List.foldl_append

/-- A class is taken if a record of its kind and name is among those read. -/
theorem contains_ofRecords (kind : SourceKind) :
    ((ofRecords rs).of kind).contains fqn = true ↔ ∃ r ∈ rs, r.kind = kind ∧ r.fqn = fqn := by
  rw [NameMap.contains, find?_ofRecords, List.find?_isSome]
  simp only [decide_eq_true_eq]

/-! ## The counter -/

/-- A further record is held or counted. -/
theorem size_add :
    (c.add r).production.size + (c.add r).tests.size + (c.add r).duplicates =
      c.production.size + c.tests.size + c.duplicates + 1 := by
  rw [add]
  split
  · rfl
  · next hc =>
    rw [Bool.not_eq_true] at hc
    cases hk : r.kind with
    | production =>
      rw [hk] at hc
      have hs := NameMap.size_insert (v := r) hc
      simp only [of] at hs
      simp only [hs]
      omega
    | test =>
      rw [hk] at hc
      have hs := NameMap.size_insert (v := r) hc
      simp only [of] at hs
      simp only [hs]
      omega

/-- A record counts as a duplicate exactly if its class is taken. -/
theorem duplicates_add :
    (c.add r).duplicates = c.duplicates + if (c.of r.kind).contains r.fqn then 1 else 0 := by
  rw [add]
  split
  · rfl
  · cases r.kind <;> rfl

/-- One record more is a repetition exactly if its class is taken. -/
theorem repetitions_concat :
    repetitions (rs ++ [r]) =
      repetitions rs + if ((ofRecords rs).of r.kind).contains r.fqn then 1 else 0 := by
  have hfront : ∀ p ∈ rs.zipIdx, ((rs ++ [r]).take p.2).any (fun q => SameClass q p.1) =
      (rs.take p.2).any fun q => SameClass q p.1 := by
    intro p hp
    have hlt : p.2 < rs.length := List.snd_lt_of_mem_zipIdx hp
    rw [List.take_append_of_le_length (Nat.le_of_lt hlt)]
  have hlast : (rs.any fun q => SameClass q r) = ((ofRecords rs).of r.kind).contains r.fqn := by
    rw [Bool.eq_iff_iff, contains_ofRecords, List.any_eq_true]
    exact exists_congr fun q => and_congr_right fun _ => decide_eq_true_iff
  rw [repetitions, List.zipIdx_append, List.countP_append, List.countP_congr fun p hp => by
    rw [hfront p hp]]
  simp [hlast, repetitions]

/-- Every record is kept or counted as a duplicate. -/
theorem size_ofRecords :
    (ofRecords rs).production.size + (ofRecords rs).tests.size + (ofRecords rs).duplicates =
      rs.length := by
  induction rs using List.reverseRecOn with
  | nil => rfl
  | append_singleton rs r ih =>
    rw [ofRecords_concat, size_add, ih, List.length_append, List.length_singleton]

/-- The duplicates are the repetitions among the records. -/
theorem duplicates_ofRecords : (ofRecords rs).duplicates = repetitions rs := by
  induction rs using List.reverseRecOn with
  | nil => rfl
  | append_singleton rs r ih => rw [ofRecords_concat, duplicates_add, ih, repetitions_concat]

/-! ## The order of the tests of a simple name -/

/-- A name has a first test exactly if a test of that name is kept. -/
theorem firstTestAt_lt :
    firstTestAt rs fqn < rs.length ↔ (ofRecords rs).tests.contains fqn = true := by
  rw [firstTestAt, List.findIdx_lt_length]
  simp only [decide_eq_true_eq]
  exact (contains_ofRecords .test).symm

/-- A further record leaves the first place of a held test as it is, and comes behind all of
them. -/
theorem firstTestAt_concat :
    firstTestAt (rs ++ [r]) fqn =
      if (ofRecords rs).tests.contains fqn = true then firstTestAt rs fqn
      else firstTestAt [r] fqn + rs.length := by
  rw [firstTestAt, List.findIdx_append]
  exact if_congr firstTestAt_lt rfl rfl

/-- The tests of a simple name are listed in the order of their first records. -/
theorem pairwise_testsNamed :
    ((ofRecords rs).testsNamed simple).Pairwise fun a b => firstTestAt rs a < firstTestAt rs b := by
  induction rs using List.reverseRecOn with
  | nil => exact .nil
  | append_singleton rs r ih =>
    have hheld : ∀ a ∈ (ofRecords rs).testsNamed simple,
        (ofRecords rs).tests.contains a = true := fun a ha =>
      ((listsTests_ofRecords a simple).1 ha).1
    have hkept : ((ofRecords rs).testsNamed simple).Pairwise fun a b =>
        firstTestAt (rs ++ [r]) a < firstTestAt (rs ++ [r]) b := by
      refine ih.imp_of_mem fun ha hb hab => ?_
      rwa [firstTestAt_concat, if_pos (hheld _ ha), firstTestAt_concat, if_pos (hheld _ hb)]
    rw [ofRecords_concat, testsNamed_add]
    split
    · next hr =>
      refine List.pairwise_append.2 ⟨hkept, List.pairwise_singleton _ _, fun a ha b hb => ?_⟩
      obtain rfl := List.mem_singleton.1 hb
      rw [firstTestAt_concat, if_pos (hheld a ha), firstTestAt_concat, if_neg (by simp [hr.2.1])]
      exact Nat.lt_add_left _ (firstTestAt_lt.2 (hheld a ha))
    · exact hkept

/-! ## What is held -/

/-- Whatever records a catalogue is built from, of each kind and name it holds the first one; it has
counted exactly the other ones, so that what is held and what is counted add up to all records, for
a folder to all files that can be read; and by a simple name it lists the held tests that have it,
without repetition and in the order of their records. -/
theorem ofRecords_holdsFirsts :
    (ofRecords rs).HoldsFirsts rs ∧
      ∀ (t : FileTree) (root : Path) (config : Config),
        (Scan.ofRoot t root config).catalogue.production.size +
            (Scan.ofRoot t root config).catalogue.tests.size +
            (Scan.ofRoot t root config).catalogue.duplicates =
          (Scan.ofRoot t root config).filesParsed := by
  refine ⟨⟨fun _ _ => find?_ofRecords, duplicates_ofRecords, size_ofRecords, fun simple fqn => ?_,
    fun simple => ?_, fun _ => pairwise_testsNamed⟩, fun t root config => size_ofRecords⟩
  · rw [listsTests_ofRecords, NameMap.contains, Option.isSome_iff_exists, exists_and_right.symm]
    refine exists_congr fun r => and_congr_right fun hr => ?_
    obtain rfl := fqn_of_find? .test hr
    rfl
  · have hordered : ((ofRecords rs).testsNamed simple).Pairwise fun a b =>
        firstTestAt rs a < firstTestAt rs b := pairwise_testsNamed
    refine hordered.imp ?_
    rintro a _ hab rfl
    exact Nat.lt_irrefl _ hab

end

end Catalogue

end TestImpact
