import TestImpact.Text.Blank
import TestImpact.Text.Pieces

/-!
# Listed changes

A listing has one change a line: a status letter, for some statuses with a score, and one or two
paths behind tabs. `changedPaths` reads the paths: both of a renaming, the new one of a copy, the
one of an addition, modification, deletion or change of type.
-/

namespace TestImpact.Changes

/-- The lines of a text. A line ends in a line feed with or without a carriage return in front of
it; nothing after the last line feed is no line. -/
def lines (cs : List Char) : List (List Char) :=
  let all := cs.splitOn '\n'
  let ended := all.dropLast.map fun l => if l.getLast? = some '\r' then l.dropLast else l
  match all.getLast? with
  | some (c :: r) => ended ++ [c :: r]
  | _ => ended

/-- The paths of a line, from its fields. -/
def pathsOf : List (List Char) → List (List Char)
  | ('R' :: _) :: old :: new :: _ => [old, new]
  | ('C' :: _) :: _ :: new :: _ => [new]
  | ('A' :: _) :: path :: _ | ('M' :: _) :: path :: _ | ('D' :: _) :: path :: _
  | ('T' :: _) :: path :: _ => [path]
  | _ => []

/-- The paths that a listing names, in its order. Blank lines name none. -/
def changedPaths (listing : String) : List String :=
  ((lines listing.toList).flatMap fun line =>
    if line.all isBlank then [] else pathsOf (line.splitOn '\t')).map .ofList

end TestImpact.Changes
