import TestImpact.Text.Pieces

/-!
# Paths

A path is its text; two texts mean the same place if they have the same components. Repeated slashes
and inner or trailing `.` components do not count, `..` stays a component of its own. Main
statement: a path starts with itself (`startsWith_refl`).
-/

namespace TestImpact

/-- One step of a path. -/
inductive Component
  /-- The leading slash. -/
  | root
  /-- A leading `.`. -/
  | here
  /-- `..`. -/
  | up
  | name (text : String)
deriving DecidableEq, Repr

/-- The text of a step. -/
def Component.text : Component → String
  | .root => "/"
  | .here => "."
  | .up => ".."
  | .name s => s

/-- A text that is one step of a path, wherever it stands. -/
structure IsStep (s : String) : Prop where
  ne_empty : s ≠ ""
  ne_here : s ≠ "."
  no_slash : '/' ∉ s.toList

/-- A name of a file or a folder: a step that leads down. -/
structure IsName (s : String) : Prop extends IsStep s where
  ne_up : s ≠ ".."

instance {s : String} : Decidable (IsName s) :=
  decidable_of_decidable_of_iff (p := (s ≠ "" ∧ s ≠ "." ∧ '/' ∉ s.toList) ∧ s ≠ "..")
    ⟨fun h => ⟨⟨h.1.1, h.1.2.1, h.1.2.2⟩, h.2⟩, fun h =>
      ⟨⟨h.ne_empty, h.ne_here, h.no_slash⟩, h.ne_up⟩⟩

/-- A path, as it is written. -/
structure Path where
  text : String
deriving DecidableEq, Repr

namespace Path

/-- The step that a segment between two slashes stands for, if it stands for one. -/
def component? (segment : List Char) : Option Component :=
  if segment = [] || segment = ['.'] then none
  else if segment = ['.', '.'] then some .up
  else some (.name (.ofList segment))

/-- The steps of a path. -/
def components (p : Path) : List Component :=
  match p.text.toList.splitOn '/' with
  | [] :: [] => []
  | [] :: segments => .root :: segments.filterMap component?
  | ['.'] :: segments => .here :: segments.filterMap component?
  | segments => segments.filterMap component?

/-- The path that goes on from `p` with the text `more`; an absolute `more` stands alone. -/
def join (p : Path) (more : String) : Path :=
  if startsWith "/" more then ⟨more⟩
  else if p.text.isEmpty || endsIn "/" p.text then ⟨p.text ++ more⟩
  else ⟨p.text ++ "/" ++ more⟩

/-- The path that goes on from `p` through the named folders. -/
def descend (p : Path) (names : List String) : Path := names.foldl join p

/-- The shortest text with these components. -/
def ofComponents (cs : List Component) : Path :=
  match cs with
  | .root :: r => ⟨"/" ++ "/".intercalate (r.map Component.text)⟩
  | _ => ⟨"/".intercalate (cs.map Component.text)⟩

/-- The components of `p` begin with those of `q`. -/
def startsWith (p q : Path) : Bool := q.components.isPrefixOf p.components

/-- Adds a step to a folded path: `.` is dropped and `..` takes the last step away, unless there is
none or it is the leading slash. The steps are listed last one first. -/
def fold (steps : List Component) : Component → List Component
  | .here => steps
  | .up => match steps with
    | [] => [.up]
    | .root :: r => .up :: .root :: r
    | _ :: r => r
  | c => c :: steps

/-- The path with `.` and `..` folded, without a look at the folders it names. -/
def normalize (p : Path) : Path := ofComponents (p.components.foldl fold []).reverse

/-- The name that a path ends in. -/
def fileName? (p : Path) : Option String :=
  match p.components.getLast? with
  | some (.name s) => some s
  | _ => none

/-- A file name cut at its last dot, unless the dot is its first character. -/
def splitExtension (name : List Char) : List Char × Option (List Char) :=
  if '.' ∈ name ∧ beforeLast '.' name ≠ [] then (beforeLast '.' name, some (afterLast '.' name))
  else (name, none)

/-- What follows the last dot of the file name, unless the dot is its first character. -/
def extension? (p : Path) : Option String :=
  p.fileName?.bind fun s => (splitExtension s.toList).2.map .ofList

/-- The reversed text of a path without the slashes and `.` components at the path's end. -/
def dropTrailing : List Char → List Char
  | '/' :: r => dropTrailing r
  | '.' :: '/' :: r => dropTrailing r
  | r => r

/-- The text cut after the stem of the file name; a text without a file name stays. -/
def cutAtStem (cs : List Char) : List Char :=
  let back := dropTrailing cs.reverse
  let name := (back.takeWhile (· ≠ '/')).reverse
  if name = [] ∨ name = ['.'] ∨ name = ['.', '.'] then cs
  else (back.dropWhile (· ≠ '/')).reverse ++ (splitExtension name).1

/-- The path without its extension: as many characters as the extension has go from the end of the
text, then what follows the stem. -/
def withoutExtension (p : Path) : Path :=
  match p.extension? with
  | none => p
  | some ext => ⟨.ofList (cutAtStem (p.text.toList.take (p.text.length - ext.length)))⟩

/-- A path starts with itself. -/
theorem startsWith_refl (p : Path) : p.startsWith p = true := by
  simp [startsWith]

end Path

end TestImpact
