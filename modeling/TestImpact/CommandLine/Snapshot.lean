import TestImpact.Changes.Session
import TestImpact.FileTree.Edit
import TestImpact.Text.Hexadecimal

/-!
# What a run of the program sees

A run sees a file tree and the replies of git, given by lines whose fields are separated by tabs.
The first field tells the line's kind: `here` has the working directory, `folder` a path, `link` a
path and a target, `file` a path and its bytes, `reply` an exit code and the bytes of both outputs.
Bytes are written as pairs of hexadecimal digits. Other lines do not count.
-/

namespace TestImpact.CommandLine

/-- A file tree and the replies of git that are to come. -/
structure Snapshot where
  tree : FileTree := ⟨.empty, []⟩
  replies : List Changes.Reply := []
deriving Repr

namespace Snapshot

/-- The snapshot with one more line. -/
def add (s : Snapshot) (line : String) : Snapshot :=
  match piecesOf '\t' line with
  | ["here", path] => { s with tree := { s.tree with here := (piecesOf '/' path).filter (· ≠ "") } }
  | ["folder", path] => { s with tree := s.tree.makeFolder ⟨path⟩ }
  | ["link", path, target] => { s with tree := s.tree.writeLink ⟨path⟩ target }
  | ["file", path, hex] => { s with tree := s.tree.writeFile ⟨path⟩ (Hexadecimal.bytes hex.toList) }
  | ["reply", code, out, err] =>
    let reply : Changes.Reply :=
      { code := if code = "0" then 0 else 1
        out := Hexadecimal.bytes out.toList, err := Hexadecimal.bytes err.toList }
    { s with replies := s.replies ++ [reply] }
  | _ => s

/-- The snapshot of the given lines. -/
def ofLines (lines : List String) : Snapshot := lines.foldl add {}

end Snapshot

end TestImpact.CommandLine
