import TestImpact.FileTree.Place

/-!
# Walks through folders

A walk visits the items below a folder without following links. `matchingFolders` finds the folders
whose path ends in given components: a folder of a pruned name is not entered, and neither is one
that has been found. `filesBelow` lists all files.
-/

namespace TestImpact

namespace Items

/-- The folders inside that `accepts` their names from the start of the walk, with what they hold.
`names` leads to the folder at hand. -/
def matching (accepts : List String → Bool) (pruned : List String) (names : List String) :
    Items → List (List String × Items)
  | empty => []
  | file _ _ rest | link _ _ rest => rest.matching accepts pruned names
  | folder name inside rest =>
    (if pruned.contains name then []
      else if accepts (names ++ [name]) then [(names ++ [name], inside)]
      else inside.matching accepts pruned (names ++ [name])) ++
        rest.matching accepts pruned names

/-- The files inside at any depth, with their names from the start of the walk and their bytes. -/
def files (names : List String) : Items → List (List String × List UInt8)
  | empty => []
  | file name bytes rest => (names ++ [name], bytes) :: rest.files names
  | link _ _ rest => rest.files names
  | folder name inside rest => inside.files (names ++ [name]) ++ rest.files names

end Items

/-- Sorts by the names that lead to something, component by component. -/
def sortByNames {α : Type} (xs : List (List String × α)) : List (List String × α) :=
  xs.mergeSort fun a b => !b.1.lex a.1 fun x y => decide (x < y)

namespace FileTree

/-- The components of a folder suffix: a backslash is a slash, and slashes at the ends do not
count. -/
def suffixComponents (text : String) : List Component :=
  let cs := (replaceChar '\\' '/' text).toList
  let inner := ((cs.dropWhile (· = '/')).reverse.dropWhile (· = '/')).reverse
  Path.components ⟨.ofList inner⟩

/-- The folder that a walk from `root` starts in, and whether it counts as found in its own right,
which a link does not. -/
def walkStart? (t : FileTree) (root : Path) : Option (Items × Bool) :=
  match t.itemItself? root with
  | some (.folder inside) => some (inside, true)
  | some (.link _) =>
    match t.item? root with
    | some (.folder inside) => some (inside, false)
    | _ => none
  | _ => none

/-- The folders at or below `root` whose path ends in the components of `suffix`, in the order of
their names from `root`, with what they hold. -/
def matchingFolders (t : FileTree) (root : Path) (suffix : String) (pruned : List String) :
    List (List String × Items) :=
  let wanted := suffixComponents suffix
  let accepts (names : List String) : Bool :=
    wanted.isSuffixOf (root.components ++ names.map Component.name)
  if wanted.isEmpty then []
  else match t.walkStart? root with
    | none => []
    | some (inside, counts) =>
      if counts && accepts [] then [([], inside)]
      else sortByNames (inside.matching accepts pruned [])

/-- The files of the given extension below a folder, in the order of their names from there. -/
def filesBelow (extension : String) (f : Items) : List (List String × List UInt8) :=
  sortByNames ((f.files []).filter fun e =>
    Path.extension? ⟨"/".intercalate e.1⟩ = some extension)

end FileTree

end TestImpact
