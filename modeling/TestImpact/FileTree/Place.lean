import TestImpact.FileTree.Folder
import TestImpact.Text.Utf8

/-!
# Places in a file tree

A path leads to a place: the names of the folders from the top down to the item. On the way `..`
leads back, and links lead to where their targets do; a path that goes on behind an item needs a
folder there. A path that leads through too many links leads nowhere, and neither does one that is
too long or has a name that is.
-/

namespace TestImpact

/-- All files, and the names of the folder from which relative paths start. -/
structure FileTree where
  /-- The folder that all others are in. -/
  disk : Folder
  here : List String
deriving Repr

namespace FileTree

/-- What the folder at the top holds. -/
def top (t : FileTree) : Items := t.disk.items

/-- No folder of a tree has an improper name in it, or a name twice. -/
theorem wellNamed_top (t : FileTree) : t.top.WellNamed := t.disk.wellNamed

/-- The greatest number of links on the way to a place. -/
def maxLinks : Nat := 40

/-- The greatest number of bytes in a name. -/
def maxNameBytes : Nat := 255

/-- The greatest number of bytes in a path. -/
def maxPathBytes : Nat := 4095

/-- What the last name of a path leads to. -/
inductive PathEnd
  /-- The item of that name; where it is a link, what that leads to. -/
  | target
  /-- The item of that name, be it a link. -/
  | itself
  /-- What `target` leads to, or the place for it where there is no item yet. -/
  | fresh
deriving DecidableEq, Repr

/-- The names between the slashes of a path. -/
def steps (text : String) : List String := piecesOf '/' text

/-- The path starts at the top. -/
def isAbsolute (text : String) : Bool := startsWith "/" text

/-- Follows the steps of a path from a place through at most `links` links. -/
def follow (top : Items) (links : Nat) (place : List String) (last : PathEnd) :
    List String → Except FileError (List String)
  | [] => .ok place
  | step :: rest =>
    match top.at? place with
    | some (.folder inside) =>
      if step = "" ∨ step = "." then follow top links place last rest
      else if step = ".." then follow top links place.dropLast last rest
      else if maxNameBytes < step.utf8ByteSize then .error .nameTooLong
      else match inside.find? step with
        | none => if rest = [] ∧ last = .fresh then .ok (place ++ [step]) else .error .notFound
        | some (.link target) =>
          if rest = [] ∧ last = .itself then .ok (place ++ [step])
          else match links with
            | 0 => .error .tooManyLinks
            | n + 1 =>
              follow top n (if isAbsolute target then [] else place) last (steps target ++ rest)
        | some _ => follow top links (place ++ [step]) last rest
    | some _ => .error .notDirectory
    | none => .error .notFound
termination_by ss => (links, ss.length)

/-- The place from which a path starts. -/
def startOf (t : FileTree) (p : Path) : List String := if isAbsolute p.text then [] else t.here

/-- The place that a path leads to. -/
def placeOf (t : FileTree) (p : Path) (last : PathEnd) : Except FileError (List String) :=
  if p.text.isEmpty then .error .notFound
  else if '\x00' ∈ p.text.toList then .error .nulInName
  else if maxPathBytes < p.text.utf8ByteSize then .error .nameTooLong
  else follow t.top maxLinks (t.startOf p) last (steps p.text)

/-- The absolute path of a place. -/
def pathOf (place : List String) : Path := ⟨"/" ++ "/".intercalate place⟩

/-- The path without links, `.` and `..` that leads to the same place as `p`. -/
def canonical (t : FileTree) (p : Path) : Except FileError Path := (t.placeOf p .target).map pathOf

/-- What a path leads to, links followed. -/
def item? (t : FileTree) (p : Path) : Option Item :=
  (t.placeOf p .target).toOption.bind t.top.at?

/-- What a path leads to, a link at its end not followed. -/
def itemItself? (t : FileTree) (p : Path) : Option Item :=
  (t.placeOf p .itself).toOption.bind t.top.at?

/-- The path leads to a folder. -/
def isFolder (t : FileTree) (p : Path) : Bool :=
  match t.item? p with
  | some (.folder _) => true
  | _ => false

/-- The path leads to a file. -/
def isFile (t : FileTree) (p : Path) : Bool :=
  match t.item? p with
  | some (.file _) => true
  | _ => false

/-- The path leads somewhere. -/
def exists? (t : FileTree) (p : Path) : Bool := (t.item? p).isSome

/-- The text of the file that a path leads to. -/
def readText (t : FileTree) (p : Path) : Except FileError String := do
  match t.top.at? (← t.placeOf p .target) with
  | some (.file bytes) =>
    match Utf8.decode? bytes with
    | some s => return s
    | none => throw .notUtf8
  | some _ => throw .isDirectory
  | none => throw .notFound

end FileTree

end TestImpact
