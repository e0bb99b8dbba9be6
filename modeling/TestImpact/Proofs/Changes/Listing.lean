import TestImpact.Changes.NameStatus
import TestImpact.Proofs.Path

/-!
# Written listings

A `Listing` is what a listing of changes says, line by line, with the ending of each line; between
the changes there may be blank lines and lines of other statuses. Main statement: from the text of a
listing the paths of its changes are read, no more and in their order (`changedPaths_listing`).
Behind a line feed a listing starts anew (`lines_append`), so that it is enough to read one line,
from whose end a carriage return has been taken away (`Line.namedBy_withoutReturn`).
-/

namespace TestImpact.Changes

/-! ## Lines -/

/-- A text between two tabs of a line. -/
structure Field where
  text : String
  no_tab : '\t' ∉ text.toList := by decide
  no_newline : '\n' ∉ text.toList := by decide

/-- A path at the end of a line, where a carriage return belongs to the line's ending. -/
structure LastPath extends Field where
  no_return : text.toList.getLast? ≠ some '\r' := by decide

/-- The changes of one path. -/
inductive Edit
  | addition
  | modification
  | deletion
  | typeChange
deriving DecidableEq, Repr

/-- The letter that stands for a change of one path. -/
def Edit.letter : Edit → Char
  | addition => 'A'
  | modification => 'M'
  | deletion => 'D'
  | typeChange => 'T'

/-- The changes of two paths. -/
inductive Transfer
  | move
  | copy
deriving DecidableEq, Repr

/-- The letter that stands for a change of two paths. -/
def Transfer.letter : Transfer → Char
  | move => 'R'
  | copy => 'C'

/-- The letters of the statuses that name a path. -/
def statusLetters : List Char := ['A', 'M', 'D', 'T', 'R', 'C']

/-- A line of a listing. -/
inductive Line
  | edit (kind : Edit) (path : LastPath)
  | transfer (kind : Transfer) (score old : Field) (new : LastPath)
  | blank (chars : List Char) (blanks : ∀ c ∈ chars, isBlank c = true) (no_newline : '\n' ∉ chars)
  /-- A line of another status. -/
  | other (chars : List Char) (status : ∀ c ∈ chars.head?, c ∉ statusLetters)
    (no_newline : '\n' ∉ chars)

namespace Line

/-- The text of a line. -/
def chars : Line → List Char
  | edit kind path => kind.letter :: '\t' :: path.text.toList
  | transfer kind score old new =>
    kind.letter :: (score.text.toList ++ '\t' :: (old.text.toList ++ '\t' :: new.text.toList))
  | blank cs _ _ | other cs _ _ => cs

/-- The paths that a line names: of a copy only the new one. -/
def paths : Line → List String
  | edit _ path => [path.text]
  | transfer .move _ old new => [old.text, new.text]
  | transfer .copy _ _ new => [new.text]
  | blank .. | other .. => []

end Line

/-- The ending of a line. -/
inductive LineEnd
  | feed
  | returnFeed
deriving DecidableEq, Repr

/-- What stands in front of the line feed. -/
def LineEnd.front : LineEnd → List Char
  | feed => []
  | returnFeed => ['\r']

/-- A listing: its lines with their endings, and a last line that has none. -/
structure Listing where
  ended : List (Line × LineEnd)
  last : Option Line

namespace Listing

/-- The text of a line with its ending. -/
def endedChars (e : Line × LineEnd) : List Char := e.1.chars ++ e.2.front ++ ['\n']

/-- The text of a listing. -/
def chars (l : Listing) : List Char :=
  l.ended.flatMap endedChars ++ l.last.toList.flatMap Line.chars

/-- The paths that a listing names. -/
def paths (l : Listing) : List String :=
  l.ended.flatMap (·.1.paths) ++ l.last.toList.flatMap Line.paths

end Listing

/-- The line without a carriage return at its end. -/
def withoutReturn (cs : List Char) : List Char :=
  if cs.getLast? = some '\r' then cs.dropLast else cs

/-- The paths that the text of a line names. -/
def namedBy (cs : List Char) : List (List Char) :=
  if cs.all isBlank then [] else pathsOf (cs.splitOn '\t')

section
variable {cs rest : List Char} {fields : List (List Char)}

/-! ## Cutting at line feeds -/

/-- The changed paths are those that the lines name, one line after another. -/
theorem changedPaths_ofList (cs : List Char) :
    changedPaths (.ofList cs) = ((lines cs).flatMap namedBy).map .ofList := by
  rw [changedPaths, String.toList_ofList]
  rfl

/-- Behind a line feed a listing starts anew. -/
theorem lines_append (h : '\n' ∉ cs) :
    lines (cs ++ '\n' :: rest) = withoutReturn cs :: lines rest := by
  have hne : rest.splitOn '\n' ≠ [] := List.splitOn_ne_nil _ _
  have hp : (cs ++ '\n' :: rest).splitOn '\n' = cs :: rest.splitOn '\n' := by
    rw [List.splitOn_append_cons_self, List.splitOn_eq_singleton h, List.singleton_append]
  have hlast : (cs :: rest.splitOn '\n').getLast? = (rest.splitOn '\n').getLast? := by
    rw [List.getLast?_cons, List.getLast?_eq_some_getLast hne, Option.getD_some]
  simp only [lines, hp, hlast, List.dropLast_cons_of_ne_nil hne, List.map_cons]
  split <;> rfl

/-- What follows the last line feed is a line as it stands. -/
theorem flatMap_lines_of_not_mem (h : '\n' ∉ cs) : (lines cs).flatMap namedBy = namedBy cs := by
  rw [lines, List.splitOn_eq_singleton h]
  cases cs with
  | nil => rfl
  | cons c cs => simp

/-! ## Reading one line -/

/-- A status letter is no blank. -/
theorem not_blank_of_letter {c : Char} (hc : c ∈ statusLetters) : isBlank c = false := by
  have hall : statusLetters.all (fun c => !isBlank c) = true := by decide
  simpa using List.all_eq_true.1 hall c hc

/-- A line of a status that names a path is cut into its fields. -/
theorem namedBy_cons {c : Char} (hc : c ∈ statusLetters) :
    namedBy (c :: cs) = pathsOf ((c :: cs).splitOn '\t') := by
  rw [namedBy, List.all_cons, not_blank_of_letter hc, Bool.false_and]
  rfl

/-- A field ends at its tabulator. -/
theorem splitOn_field (f : Field) :
    (f.text.toList ++ '\t' :: rest).splitOn '\t' = f.text.toList :: rest.splitOn '\t' := by
  rw [List.splitOn_append_cons_self, List.splitOn_eq_singleton f.no_tab, List.singleton_append]

/-- The last path of a line has no tabulator to be cut at. -/
theorem splitOn_lastPath (path : LastPath) : path.text.toList.splitOn '\t' = [path.text.toList] :=
  List.splitOn_eq_singleton path.no_tab

/-- The letter and the score of a line are its first field. -/
theorem splitOn_score {c : Char} (hc : c ≠ '\t') (f : Field) :
    (c :: (f.text.toList ++ '\t' :: rest)).splitOn '\t' =
      (c :: f.text.toList) :: rest.splitOn '\t' := by
  have hn : '\t' ∉ c :: f.text.toList := by
    rw [List.mem_cons, not_or]
    exact ⟨hc.symm, f.no_tab⟩
  rw [← List.cons_append, List.splitOn_append_cons_self, List.splitOn_eq_singleton hn,
    List.singleton_append]

/-- A first field of another status names no path. -/
theorem pathsOf_eq_nil (h : ∀ c ∈ cs.head?, c ∉ statusLetters) : pathsOf (cs :: fields) = [] := by
  cases cs with
  | nil => rfl
  | cons c cs =>
    have hc : c ∉ statusLetters := h c rfl
    simp only [statusLetters, List.mem_cons, List.not_mem_nil, or_false, not_or] at hc
    rw [pathsOf.eq_def]
    split <;> simp_all

/-- A line that starts with no status letter names nothing. -/
theorem namedBy_other (h : ∀ c ∈ cs.head?, c ∉ statusLetters) : namedBy cs = [] := by
  rw [namedBy]
  split
  · rfl
  · cases cs with
    | nil => rfl
    | cons c cs =>
      by_cases hc : c = '\t'
      · rw [hc, splitOn_cons_self]
        exact pathsOf_eq_nil nofun
      · obtain ⟨p, ps, -, hp⟩ := exists_splitOn_cons hc cs
        rw [hp]
        exact pathsOf_eq_nil h

/-- The paths that a line names are read from its text. -/
theorem Line.namedBy_chars (l : Line) : namedBy l.chars = l.paths.map String.toList := by
  cases l with
  | edit kind path =>
    have hp : (kind.letter :: '\t' :: path.text.toList).splitOn '\t' =
        [[kind.letter], path.text.toList] := by
      rw [← splitOn_lastPath path, ← List.singleton_append, List.splitOn_append_cons_self]
      cases kind <;> rfl
    have hc : kind.letter ∈ statusLetters := by cases kind <;> decide
    rw [chars, namedBy_cons hc, hp]
    cases kind <;> rfl
  | transfer kind score old new =>
    have hc : kind.letter ∈ statusLetters := by cases kind <;> decide
    have ht : kind.letter ≠ '\t' := by cases kind <;> decide
    rw [chars, namedBy_cons hc, splitOn_score ht, splitOn_field, splitOn_lastPath]
    cases kind <;> rfl
  | blank cs blanks => exact if_pos (List.all_eq_true.2 blanks)
  | other cs status => exact namedBy_other status

/-- A line has no line end in it. -/
theorem Line.newline_not_mem (l : Line) : '\n' ∉ l.chars := by
  cases l with
  | edit kind path =>
    have hc : '\n' ≠ kind.letter := by cases kind <;> decide
    simp [chars, hc, path.no_newline]
  | transfer kind score old new =>
    have hc : '\n' ≠ kind.letter := by cases kind <;> decide
    simp [chars, hc, score.no_newline, old.no_newline, new.no_newline]
  | blank _ _ no_newline | other _ _ no_newline => exact no_newline

/-! ## Endings -/

/-- A carriage return at the end is dropped. -/
theorem withoutReturn_append_return : withoutReturn (cs ++ ['\r']) = cs := by
  rw [withoutReturn, List.getLast?_concat, if_pos rfl, List.dropLast_concat]

/-- Nothing else of a line is dropped. -/
theorem prefix_withoutReturn (cs : List Char) : withoutReturn cs <+: cs := by
  rw [withoutReturn]
  split
  · exact List.dropLast_prefix cs
  · exact List.prefix_refl cs

/-- A line that ends in a path has no carriage return at its end. -/
theorem withoutReturn_path (cs : List Char) (path : LastPath) :
    withoutReturn (cs ++ '\t' :: path.text.toList) = cs ++ '\t' :: path.text.toList := by
  refine if_neg fun h => ?_
  rw [List.getLast?_append, List.getLast?_cons] at h
  cases hp : path.text.toList.getLast? with
  | none =>
    rw [hp] at h
    cases h
  | some c =>
    rw [hp] at h
    exact path.no_return (hp.trans h)

/-- A line without the carriage return at its end names the same paths. -/
theorem Line.namedBy_withoutReturn (l : Line) :
    namedBy (withoutReturn l.chars) = l.paths.map String.toList := by
  cases l with
  | edit kind path =>
    have h : withoutReturn (edit kind path).chars = (edit kind path).chars :=
      withoutReturn_path [kind.letter] path
    exact (congrArg namedBy h).trans (namedBy_chars (.edit kind path))
  | transfer kind score old new =>
    have he : (transfer kind score old new).chars =
        (kind.letter :: (score.text.toList ++ '\t' :: old.text.toList)) ++
          '\t' :: new.text.toList := by
      simp [chars]
    rw [he, withoutReturn_path, ← he]
    exact namedBy_chars _
  | blank cs blanks =>
    have hs := (prefix_withoutReturn cs).subset
    exact if_pos (List.all_eq_true.2 fun c hc => blanks c (hs hc))
  | other cs status =>
    obtain ⟨ds, hds⟩ := prefix_withoutReturn cs
    refine namedBy_other fun c hc => status c ?_
    have hc : (withoutReturn cs).head? = some c := hc
    rw [← hds, List.head?_append, hc]
    rfl

/-- What is read of a line with its ending and of what follows. -/
theorem flatMap_lines_endedChars (e : Line × LineEnd) :
    (lines (Listing.endedChars e ++ rest)).flatMap namedBy =
      e.1.paths.map String.toList ++ (lines rest).flatMap namedBy := by
  obtain ⟨l, ending⟩ := e
  have hn : '\n' ∉ l.chars ++ ending.front := by
    rw [List.mem_append, not_or]
    exact ⟨l.newline_not_mem, by cases ending <;> decide⟩
  have hline : namedBy (withoutReturn (l.chars ++ ending.front)) = l.paths.map String.toList := by
    cases ending with
    | feed =>
      rw [LineEnd.front, List.append_nil]
      exact l.namedBy_withoutReturn
    | returnFeed =>
      rw [LineEnd.front, withoutReturn_append_return]
      exact l.namedBy_chars
  rw [Listing.endedChars, List.append_assoc, List.singleton_append, lines_append hn,
    List.flatMap_cons, hline]

end

/-- From the text of a listing the paths that it names are read, in their order. -/
theorem changedPaths_listing (l : Listing) : changedPaths (.ofList l.chars) = l.paths := by
  have hlast : (lines (l.last.toList.flatMap Line.chars)).flatMap namedBy =
      (l.last.toList.flatMap Line.paths).map String.toList := by
    cases l.last with
    | none => rfl
    | some line =>
      simp only [Option.toList_some, List.flatMap_singleton]
      rw [flatMap_lines_of_not_mem line.newline_not_mem, line.namedBy_chars]
  have hread : (lines l.chars).flatMap namedBy = l.paths.map String.toList := by
    rw [Listing.chars, Listing.paths]
    induction l.ended with
    | nil => exact hlast
    | cons e es ih =>
      rw [List.flatMap_cons, List.append_assoc, flatMap_lines_endedChars, ih, ← List.map_append,
        List.flatMap_cons, List.append_assoc]
  rw [changedPaths_ofList, hread, List.map_map]
  exact (List.map_congr_left fun s _ => String.ofList_toList).trans (List.map_id l.paths)

example : changedPaths "R087\told\tnew\r\n\nX\tx\nD\t A\tb" = ["old", "new", " A"] := by
  decide +kernel

end TestImpact.Changes
