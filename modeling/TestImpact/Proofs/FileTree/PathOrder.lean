import Mathlib.Data.List.Lex
import TestImpact.Proofs.FileTree.Removal

/-!
# The order of paths

Paths are compared component by component. Below one folder this is the order of the names that lead
on from there (`Path.precedes_descend`). No folder that a walk finds is inside another one
(`FileTree.pairwise_matchingFolders`), so what is inside of it comes before all that is inside of
the folders behind it (`ComesBefore.append`).
-/

namespace TestImpact

/-! ## Paths -/

namespace Component

/-- The place of a kind of steps in the order of paths. -/
def rank : Component → Nat
  | root => 0
  | here => 1
  | up => 2
  | name _ => 3

/-- The step comes before the other one, a name by its text. -/
def precedes : Component → Component → Bool
  | name s, name s' => s < s'
  | c, d => c.rank < d.rank

/-- Of two steps at most one comes before the other. -/
theorem precedes_asymm {c d : Component} (h : c.precedes d = true) : ¬d.precedes c = true := by
  cases c <;> cases d
  case name.name s s' =>
    have hlt : s < s' := of_decide_eq_true h
    exact fun hgt => String.lt_asymm hlt (of_decide_eq_true hgt)
  all_goals simp_all [precedes, rank]

end Component

namespace Path

/-- The path comes before the other one, compared from the first component on. -/
def Precedes (p q : Path) : Prop :=
  (p.components.lex q.components Component.precedes) = true

instance : DecidableRel Precedes := fun _ _ => inferInstanceAs (Decidable (_ = _))

section
variable {p q : Path} {s : String} {names more : List String} {cs : List Char}
  {ps : List (List Char)}

/-- Paths are compared at the first component in which they differ. -/
theorem precedes_iff :
    p.Precedes q ↔
      List.Lex (fun c d => c.precedes d = true) p.components q.components :=
  List.lex_eq_true_iff_lex _

/-- Of two paths at most one comes before the other. -/
theorem Precedes.asymm (h : p.Precedes q) : ¬q.Precedes p := by
  have : Std.Asymm fun c d : Component => c.precedes d = true :=
    ⟨fun _ _ => Component.precedes_asymm⟩
  rw [precedes_iff] at h ⊢
  exact asymm_of _ h

/-! ## Steps below a path -/

/-- What the first piece of a path stands for. -/
def firstStep (cs : List Char) : List Component :=
  if cs = [] then [.root] else if cs = ['.'] then [.here] else (component? cs).toList

/-- What the pieces of a text that is not empty stand for. -/
def stepsOf : List (List Char) → List Component
  | [] => []
  | cs :: ps => firstStep cs ++ ps.filterMap component?

/-- A further piece adds the step that it stands for, if it stands for one. -/
theorem stepsOf_concat (hne : ps ≠ []) :
    stepsOf (ps ++ [cs]) = stepsOf ps ++ (component? cs).toList := by
  obtain ⟨first, ps, rfl⟩ := List.exists_cons_of_ne_nil hne
  rw [List.cons_append, stepsOf, stepsOf, List.filterMap_append, List.append_assoc,
    List.filterMap_cons]
  cases component? cs <;> rfl

/-- The components of a path are the steps of its pieces. -/
theorem components_eq (hne : p.text ≠ "") : p.components = stepsOf (p.text.toList.splitOn '/') := by
  have hpieces : p.text.toList.splitOn '/' ≠ [[]] := by
    intro he
    have htext : ['/'].intercalate (p.text.toList.splitOn '/') = _ := List.intercalate_splitOn '/'
    rw [he] at htext
    exact hne (String.toList_inj.1 htext.symm)
  rw [components]
  split
  · next he => exact absurd he hpieces
  · next he =>
    rw [he]
    rfl
  · next he =>
    rw [he]
    rfl
  · next hroot hhere =>
    cases hp : p.text.toList.splitOn '/' with
    | nil => rfl
    | cons first ps =>
      have hr : first ≠ [] := by
        rintro rfl
        exact hroot _ hp
      have hh : first ≠ ['.'] := by
        rintro rfl
        exact hhere _ hp
      rw [stepsOf, firstStep, if_neg hr, if_neg hh, List.filterMap_cons]
      cases component? first <;> rfl

/-- What stands behind the last slash of a path is its last step, if it is one. -/
theorem components_of_append {front last : List Char} (h : p.text.toList = front ++ '/' :: last)
    (hl : '/' ∉ last) :
    p.components = stepsOf (front.splitOn '/') ++ (component? last).toList := by
  have hne : p.text ≠ "" := by
    intro he
    rw [he] at h
    simp at h
  rw [components_eq hne, h, List.splitOn_append_cons_self, List.splitOn_eq_singleton hl,
    stepsOf_concat (List.splitOn_ne_nil _ _)]

/-- A name that is joined to a path is its last step. -/
theorem components_join (hs : IsName s) : (p.join s).components = p.components ++ [.name s] := by
  have hstep : component? s.toList = some (.name s) :=
    hs.component?.trans (congrArg some (if_neg hs.ne_up))
  have hrel : ¬TestImpact.startsWith "/" s = true := by
    intro h
    obtain ⟨r, hr⟩ := List.isPrefixOf_iff_prefix.1 h
    exact hs.no_slash (hr ▸ List.mem_cons_self)
  rw [join, if_neg hrel]
  by_cases hempty : p.text = ""
  · have hp : p.components = [] := by rw [components, hempty]; rfl
    have hone := components_intercalate (List.forall_mem_singleton.2 hs.toIsStep)
    rw [hempty, hp]
    simpa [stepOf, hs.ne_up] using hone
  by_cases hend : endsIn "/" p.text = true
  · obtain ⟨front, hfront⟩ := List.isSuffixOf_iff_suffix.1 hend
    have hjoin : (p.text ++ s).toList = front ++ '/' :: s.toList := by
      rw [String.toList_append, ← hfront, List.append_assoc]
      rfl
    rw [if_pos (by simp [hend]), components_of_append hjoin hs.no_slash,
      components_of_append hfront.symm List.not_mem_nil, hstep]
    simp [component?]
  · have hjoin : (p.text ++ "/" ++ s).toList = p.text.toList ++ '/' :: s.toList := by
      rw [String.toList_append, String.toList_append, List.append_assoc]
      rfl
    rw [if_neg (by simp [hend, hempty]), components_of_append hjoin hs.no_slash, hstep,
      components_eq hempty]
    rfl

/-- Going down adds the names behind the components of the path. -/
theorem components_descend (hn : ∀ s ∈ names, IsName s) :
    (p.descend names).components = p.components ++ names.map .name := by
  induction names generalizing p with
  | nil => simp [descend]
  | cons s names ih =>
    obtain ⟨hs, hn⟩ := List.forall_mem_cons.1 hn
    have hd : p.descend (s :: names) = (p.join s).descend names := rfl
    rw [hd, ih hn, components_join hs]
    simp

/-- Below one folder paths are in the order of their names. -/
theorem precedes_descend (hn : ∀ s ∈ names, IsName s) (hm : ∀ s ∈ more, IsName s)
    (h : ComesBefore names more) : (p.descend names).Precedes (p.descend more) := by
  rw [precedes_iff, components_descend hn, components_descend hm]
  refine List.Lex.append_left _ ?_ _
  have hlex : List.Lex (fun x y => decide (x < y) = true) names more :=
    (List.lex_eq_true_iff_lex _).1 h
  clear hn hm h
  induction hlex with
  | nil => exact .nil
  | cons _ ih => exact .cons ih
  | rel hlt => exact .rel hlt

end

end Path

/-! ## Names that lead on -/

/-- Whatever follows, names come before others that do not go on from them. -/
theorem ComesBefore.append {a b : List String} (h : ComesBefore a b) (hp : ¬a <+: b)
    (x y : List String) : ComesBefore (a ++ x) (b ++ y) := by
  rw [ComesBefore, List.lex_eq_true_iff_lex] at h ⊢
  induction h with
  | nil => exact absurd (List.nil_prefix) hp
  | cons _ ih => exact .cons (ih fun hb => hp (List.cons_prefix_cons.2 ⟨rfl, hb⟩))
  | rel hlt => exact .rel hlt

/-! ## Folders that are found -/

namespace FileTree

section
variable {t : FileTree} {root : Path} {suffix : String} {pruned names : List String} {g : Items}

/-- Names lead from the start of the walk to every folder that is found. -/
theorem at?_of_mem_matchingFolders
    (h : (names, g) ∈ t.matchingFolders root suffix pruned) :
    ∃ inside counts, t.walkStart? root = some (inside, counts) ∧
      inside.at? names = some (.folder g) := by
  rw [matchingFolders] at h
  split at h
  · cases h
  cases hw : t.walkStart? root with
  | none =>
    rw [hw] at h
    cases h
  | some start =>
    obtain ⟨inside, counts⟩ := start
    refine ⟨inside, counts, rfl, ?_⟩
    rw [hw] at h
    simp only at h
    split at h
    · cases List.mem_singleton.1 h
      rfl
    · rw [mem_sortByNames, Items.mem_matching_iff (wellNamed_of_walkStart? hw).distinct] at h
      obtain ⟨more, rfl, hat, -⟩ := h
      exact hat

/-- The folders that are found stand in the order of their names, none of them inside another. -/
theorem pairwise_matchingFolders :
    (t.matchingFolders root suffix pruned).Pairwise
      fun a b => ComesBefore a.1 b.1 ∧ ¬a.1 <+: b.1 := by
  rw [matchingFolders]
  split
  · exact .nil
  cases hw : t.walkStart? root with
  | none => exact .nil
  | some start =>
    obtain ⟨inside, counts⟩ := start
    have hinside := (wellNamed_of_walkStart? hw).distinct
    simp only
    split
    · exact List.pairwise_singleton _ _
    · refine (pairwise_sortByNames (Items.nodup_matching hinside)).imp_of_mem ?_
      rintro ⟨a, f⟩ ⟨b, g⟩ ha hb hab
      rw [mem_sortByNames, Items.mem_matching_iff hinside] at ha hb
      obtain ⟨_, rfl, -, ha⟩ := ha
      obtain ⟨_, rfl, -, hb⟩ := hb
      refine ⟨hab, ?_⟩
      rintro ⟨rest, he⟩
      -- The walk does not go on behind a folder that it has found.
      have hrest : rest ≠ [] := by
        rintro rfl
        rw [List.append_nil] at he
        exact not_comesBefore_self _ (he ▸ hab)
      have hno := hb.first _ rest he.symm ha.ne_nil hrest
      rw [ha.accepted] at hno
      cases hno

end

end FileTree

end TestImpact
