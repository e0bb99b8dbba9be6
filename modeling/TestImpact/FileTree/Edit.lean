import TestImpact.FileTree.Place

/-!
# Changes of a file tree

Files, links and folders are put where their paths lead, and the folders on the way are made. A
change that cannot be made leaves the tree as it is.
-/

namespace TestImpact.FileTree

/-- The place that steps lead to, and the disk with a folder for each of them that led nowhere. A
folder is there before `..` leads out of it again. -/
def makeSteps (disk : Folder) (place : List String) :
    List String → Except FileError (Folder × List String)
  | [] => .ok (disk, place)
  | step :: rest =>
    match follow disk.items maxLinks place .target [step],
        follow disk.items maxLinks place .itself [step] with
    | .ok next, _ => makeSteps disk next rest
    | .error .notFound, .error .notFound =>
      let next := place ++ [step]
      makeSteps (disk.putAt (.folder .empty) next) next rest
    | .error why, _ => .error why

/-- The last step of a path. -/
def lastStep (p : Path) : String := (steps p.text).getLastD ""

/-- The place that the steps in front of the last one lead to, and the disk with folders for
them. -/
def makeWay (t : FileTree) (p : Path) : Except FileError (Folder × List String) :=
  makeSteps t.disk (t.startOf p) (steps p.text).dropLast

/-- The tree with a file at the path's end. Links there are followed. -/
def writeFile (t : FileTree) (p : Path) (bytes : List UInt8) : FileTree :=
  let change : Except FileError FileTree := do
    let (disk, place) ← t.makeWay p
    let target ← follow disk.items maxLinks place .fresh [lastStep p]
    match disk.items.at? target with
    | some (.folder _) => throw .isDirectory
    | _ => return { t with disk := disk.putAt (.file bytes) target }
  change.toOption.getD t

/-- The tree with a link at the path's end, if nothing is there. -/
def writeLink (t : FileTree) (p : Path) (target : String) : FileTree :=
  match t.makeWay p with
  | .error _ => t
  | .ok (disk, place) =>
    match follow disk.items maxLinks place .itself [lastStep p] with
    | .error .notFound => { t with disk := disk.putAt (.link target) (place ++ [lastStep p]) }
    | _ => t

/-- The tree with a folder at the path's end. -/
def makeFolder (t : FileTree) (p : Path) : FileTree :=
  match makeSteps t.disk (t.startOf p) (steps p.text) with
  | .ok (disk, _) => { t with disk }
  | .error _ => t

/-- The tree without the item at the path's end. A link there goes, not what it leads to. -/
def remove (t : FileTree) (p : Path) : FileTree :=
  match t.placeOf p .itself with
  | .ok place => { t with disk := t.disk.eraseAt place }
  | .error _ => t

end TestImpact.FileTree
