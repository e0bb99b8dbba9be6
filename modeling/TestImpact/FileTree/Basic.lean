import TestImpact.FileTree.Error

/-!
# Items of folders

A folder lists its items by name. The list is a tree of its own kind: each entry is followed by the
entries behind it, so that a walk is a recursion on one inductive type. Main statement: what is
found under a name after an item is put in (`Items.find?_put`).
-/

namespace TestImpact

/-- What a folder holds. -/
inductive Items
  | empty
  | file (name : String) (bytes : List UInt8) (rest : Items)
  /-- A symbolic link, with the text of its target. -/
  | link (name target : String) (rest : Items)
  | folder (name : String) (inside rest : Items)
deriving DecidableEq, Repr

/-- One item of a folder. -/
inductive Item
  | file (bytes : List UInt8)
  | link (target : String)
  | folder (inside : Items)
deriving DecidableEq, Repr

namespace Items

/-- The item of the given name. -/
def find? (name : String) : Items → Option Item
  | empty => none
  | file n bytes rest => if n = name then some (.file bytes) else rest.find? name
  | link n target rest => if n = name then some (.link target) else rest.find? name
  | folder n inside rest => if n = name then some (.folder inside) else rest.find? name

/-- The items without those of the given name. -/
def erase (name : String) : Items → Items
  | empty => empty
  | file n bytes rest => if n = name then rest.erase name else file n bytes (rest.erase name)
  | link n target rest => if n = name then rest.erase name else link n target (rest.erase name)
  | folder n inside rest => if n = name then rest.erase name else folder n inside (rest.erase name)

/-- The items with one in front of all others. -/
def cons (name : String) (rest : Items) : Item → Items
  | .file bytes => file name bytes rest
  | .link target => link name target rest
  | .folder inside => folder name inside rest

/-- The items with one in place of that which had its name. -/
def put (name : String) (item : Item) (f : Items) : Items := (f.erase name).cons name item

/-- The item at the end of a list of names; no names lead to the folder itself. Links are not
followed. -/
def at? (f : Items) : List String → Option Item
  | [] => some (.folder f)
  | name :: names =>
    match f.find? name, names with
    | some item, [] => some item
    | some (.folder inside), names => inside.at? names
    | _, _ => none

/-- The items with one at the end of a list of names. Folders on the way are made where there are
none. -/
def putAt (item : Item) : List String → Items → Items
  | [], f => f
  | [name], f => f.put name item
  | name :: names, f =>
    match f.find? name with
    | some (.folder inside) => f.put name (.folder (putAt item names inside))
    | _ => f.put name (.folder (putAt item names empty))

/-- The items without the one at the end of a list of names. -/
def eraseAt : List String → Items → Items
  | [], f => f
  | [name], f => f.erase name
  | name :: names, f =>
    match f.find? name with
    | some (.folder inside) => f.put name (.folder (eraseAt names inside))
    | _ => f

/-- What is found under a name behind an item in front. -/
theorem find?_cons {rest : Items} {name other : String} {item : Item} :
    (rest.cons name item).find? other = if name = other then some item else rest.find? other := by
  cases item <;> rfl

/-- Nothing is found under a name that is erased, and all others stay. -/
theorem find?_erase {f : Items} {name other : String} :
    (f.erase name).find? other = if name = other then none else f.find? other := by
  induction f with
  | empty => simp [erase, find?]
  | file n _ _ ih | link n _ _ ih | folder n _ _ _ ih =>
    rw [erase]
    split
    · next h =>
      rw [ih]
      split
      · rfl
      · next hne => simp [find?, h, hne]
    · next h =>
      by_cases hn : n = other
      · have : ¬name = other := fun e => h (hn.trans e.symm)
        simp [find?, hn, this]
      · simp [find?, hn, ih]

/-- An item that is put in is found under its name, and all others stay. -/
theorem find?_put {f : Items} {name other : String} {item : Item} :
    (f.put name item).find? other = if name = other then some item else f.find? other := by
  rw [put, find?_cons, find?_erase]
  split <;> rfl

end Items

end TestImpact
