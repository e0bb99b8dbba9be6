import TestImpact.FileTree.Basic
import TestImpact.Path

/-!
# Folders

A `Folder` holds items as a disk does: their names are proper, and each is the name of one item, in
the folder and in all folders inside. This is a part of the type, so no operation on folders makes a
name that no path can lead to, or a second item of one name. What all of them rest on is that
putting an item in and taking one away keep items well named (`Items.WellNamed.putAt`,
`Items.WellNamed.eraseAt`).
-/

namespace TestImpact

namespace Items

/-- Each name in the folder, and in the folders inside, is the name of one item. -/
def DistinctNames : Items → Prop
  | empty => True
  | file name _ rest => rest.find? name = none ∧ rest.DistinctNames
  | link name _ rest => rest.find? name = none ∧ rest.DistinctNames
  | folder name inside rest => inside.DistinctNames ∧ rest.find? name = none ∧ rest.DistinctNames

/-- Decides whether the names are distinct. -/
def decideDistinctNames : (f : Items) → Decidable f.DistinctNames
  | empty => .isTrue trivial
  | file _ _ rest | link _ _ rest =>
    have := rest.decideDistinctNames
    inferInstanceAs (Decidable (_ ∧ _))
  | folder _ inside rest =>
    have := inside.decideDistinctNames
    have := rest.decideDistinctNames
    inferInstanceAs (Decidable (_ ∧ _ ∧ _))

instance : DecidablePred DistinctNames := decideDistinctNames

/-- Every item in the folder, and in the folders inside, has a name of a file or a folder. -/
def ProperNames : Items → Prop
  | empty => True
  | file name _ rest | link name _ rest => IsName name ∧ rest.ProperNames
  | folder name inside rest => IsName name ∧ inside.ProperNames ∧ rest.ProperNames

/-- Decides whether the names are proper. -/
def decideProperNames : (f : Items) → Decidable f.ProperNames
  | empty => .isTrue trivial
  | file _ _ rest | link _ _ rest =>
    have := rest.decideProperNames
    inferInstanceAs (Decidable (_ ∧ _))
  | folder _ inside rest =>
    have := inside.decideProperNames
    have := rest.decideProperNames
    inferInstanceAs (Decidable (_ ∧ _ ∧ _))

instance : DecidablePred ProperNames := decideProperNames

/-- Items as a disk holds them: they have proper names, each its own. -/
structure WellNamed (f : Items) : Prop where
  distinct : f.DistinctNames
  proper : f.ProperNames

instance {f : Items} : Decidable f.WellNamed :=
  decidable_of_decidable_of_iff (p := f.DistinctNames ∧ f.ProperNames)
    ⟨fun h => ⟨h.1, h.2⟩, fun h => ⟨h.distinct, h.proper⟩⟩

end Items

/-- What the item holds, if it is a folder, is well named. -/
def Item.WellNamed : Item → Prop
  | .folder inside => inside.WellNamed
  | .file _ | .link _ => True

instance : (item : Item) → Decidable item.WellNamed
  | .folder inside => inferInstanceAs (Decidable inside.WellNamed)
  | .file _ | .link _ => .isTrue trivial

namespace Items

section
variable {f g : Items} {name : String} {item : Item}

/-- An item that is found has a proper name, and what it holds is well named. -/
theorem WellNamed.of_find? (hf : f.WellNamed) (h : f.find? name = some item) :
    IsName name ∧ item.WellNamed := by
  obtain ⟨hd, hp⟩ := hf
  induction f with
  | empty => cases h
  | file n _ rest ih | link n _ rest ih =>
    rw [find?] at h
    split at h
    · next hn =>
      cases h
      exact ⟨hn ▸ hp.1, trivial⟩
    · exact ih h hd.2 hp.2
  | folder n inside rest _ ih =>
    rw [find?] at h
    split at h
    · next hn =>
      cases h
      exact ⟨hn ▸ hp.1, hd.1, hp.2.1⟩
    · exact ih h hd.2.2 hp.2.2

/-- Taking a name away makes no name twice. -/
theorem DistinctNames.erase (hd : f.DistinctNames) : (f.erase name).DistinctNames := by
  have hkeep : ∀ {rest : Items} {n : String}, rest.find? n = none →
      (rest.erase name).find? n = none := by
    intro rest n hn
    rw [find?_erase, hn, ite_self]
  induction f with
  | empty => trivial
  | file n b rest ih | link n target rest ih =>
    rw [Items.erase]
    split
    · exact ih hd.2
    · exact ⟨hkeep hd.1, ih hd.2⟩
  | folder n inside rest _ ih =>
    rw [Items.erase]
    split
    · exact ih hd.2.2
    · exact ⟨hd.1, hkeep hd.2.1, ih hd.2.2⟩

/-- Taking a name away leaves proper names. -/
theorem ProperNames.erase (hp : f.ProperNames) : (f.erase name).ProperNames := by
  induction f with
  | empty => trivial
  | file n b rest ih | link n target rest ih =>
    rw [Items.erase]
    split
    · exact ih hp.2
    · exact ⟨hp.1, ih hp.2⟩
  | folder n inside rest _ ih =>
    rw [Items.erase]
    split
    · exact ih hp.2.2
    · exact ⟨hp.1, hp.2.1, ih hp.2.2⟩

/-- Taking a name away keeps items well named. -/
theorem WellNamed.erase (hf : f.WellNamed) : (f.erase name).WellNamed :=
  ⟨hf.distinct.erase, hf.proper.erase⟩

/-- A well named item that is put under a proper name keeps items well named. -/
theorem WellNamed.put (hf : f.WellNamed) (hn : IsName name) (hi : item.WellNamed) :
    (f.put name item).WellNamed := by
  have hfree : (f.erase name).find? name = none := by rw [find?_erase, if_pos rfl]
  obtain ⟨hd, hp⟩ : (f.erase name).WellNamed := hf.erase
  cases item with
  | file _ | link _ => exact ⟨⟨hfree, hd⟩, hn, hp⟩
  | folder inside => exact ⟨⟨hi.distinct, hfree, hd⟩, hn, hi.proper, hp⟩

/-- So does one at the end of proper names, be there folders on the way or not. -/
theorem WellNamed.putAt {names : List String} (hf : f.WellNamed) (hn : ∀ s ∈ names, IsName s)
    (hi : item.WellNamed) : (f.putAt item names).WellNamed := by
  induction names generalizing f with
  | nil => exact hf
  | cons name names ih =>
    obtain ⟨hname, hn⟩ := List.forall_mem_cons.1 hn
    cases names with
    | nil => exact hf.put hname hi
    | cons s names =>
      rw [Items.putAt]
      split
      · next hfound => exact hf.put hname (ih (hf.of_find? hfound).2 hn)
      · exact hf.put hname (ih (f := .empty) ⟨trivial, trivial⟩ hn)
      · nofun

/-- Taking an item away keeps items well named, wherever it is. -/
theorem WellNamed.eraseAt (hf : f.WellNamed) (names : List String) :
    (f.eraseAt names).WellNamed := by
  induction names generalizing f with
  | nil => exact hf
  | cons name names ih =>
    cases names with
    | nil => exact hf.erase
    | cons s names =>
      rw [Items.eraseAt]
      split
      · next hfound =>
        obtain ⟨hname, hinside⟩ := hf.of_find? hfound
        exact hf.put hname (ih hinside)
      · exact hf
      · nofun

end

end Items

/-- A folder as a disk holds it. -/
structure Folder where
  items : Items
  wellNamed : items.WellNamed := by decide
deriving Repr

namespace Folder

/-- The folder without items. -/
def empty : Folder where items := .empty

/-- The folder with the item in place of the one that had its name. An item that no disk can hold is
left out. -/
def put (name : String) (item : Item) (f : Folder) : Folder :=
  if h : IsName name ∧ item.WellNamed then ⟨f.items.put name item, f.wellNamed.put h.1 h.2⟩ else f

/-- The folder with the item at the end of a list of names. Folders on the way are made where there
are none. An item that no disk can hold there is left out. -/
def putAt (item : Item) (names : List String) (f : Folder) : Folder :=
  if h : (∀ s ∈ names, IsName s) ∧ item.WellNamed then
    ⟨f.items.putAt item names, f.wellNamed.putAt h.1 h.2⟩
  else f

/-- The folder without the item at the end of a list of names. -/
def eraseAt (names : List String) (f : Folder) : Folder :=
  ⟨f.items.eraseAt names, f.wellNamed.eraseAt names⟩

end Folder

end TestImpact
