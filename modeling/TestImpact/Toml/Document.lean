import TestImpact.Toml.Number

/-!
# Reading a TOML document

A document is a list of lines; a line gives a name a value, opens a table, or holds nothing but a
comment. Arrays may go over lines, tables between braces may not. Values are nested less than
`maxNesting` deep, and names have fewer segments than that.
-/

namespace TestImpact.Toml

/-- The bound on the depth of values and on the number of segments of a name. -/
def maxNesting : Nat := 80

/-- What follows gaps. -/
def skipGaps (cs : List Char) : List Char := cs.dropWhile isGap

/-- What follows a comment, if there is one. -/
def skipComment : List Char → List Char
  | '#' :: r => r.dropWhile isPlain
  | cs => cs

/-- What follows gaps, line ends and comments. -/
def skipFiller (inComment : Bool) : List Char → List Char
  | '\n' :: r | '\r' :: '\n' :: r => skipFiller false r
  | ' ' :: r | '\t' :: r => skipFiller inComment r
  | '#' :: r => skipFiller true r
  | c :: r => if inComment && isPlain c then skipFiller true r else c :: r
  | [] => []

/-- Reads on a dotted name, at most `fuel` segments of it. -/
def readName : Nat → List Char → Option (List String × List Char)
  | 0, _ => none
  | fuel + 1, cs => do
    let (segment, r) ← readSegment (skipGaps cs)
    match skipGaps r with
    | '.' :: r =>
      let (more, rest) ← readName fuel r
      return (segment :: more, rest)
    | r => return ([segment], r)

/-- Reads a dotted name: the segments in front of the last one, and the last one. -/
def readName? (cs : List Char) : Option ((List String × String) × List Char) := do
  let (segments, rest) ← readName (maxNesting - 1) cs
  return ((segments.dropLast, ← segments.getLast?), rest)

mutual

/-- Reads a value that `depth` others are around. -/
def readValue (depth : Nat) : Nat → List Char → Option (Value × List Char)
  | 0, _ => none
  | fuel + 1, cs =>
    match cs with
    | '[' :: r =>
      if depth + 1 < maxNesting then
        (readItems (depth + 1) fuel r).map fun s => (.array s.1, s.2)
      else none
    | '{' :: r =>
      if depth + 1 < maxNesting then
        match skipGaps r with
        | '}' :: rest => some (.table .inline [], rest)
        | _ => (readEntries (depth + 1) fuel [] r).map fun s => (.table .inline s.1, s.2)
      else none
    | 't' :: 'r' :: 'u' :: 'e' :: r => some (.boolean true, r)
    | 'f' :: 'a' :: 'l' :: 's' :: 'e' :: r => some (.boolean false, r)
    | '"' :: _ | '\'' :: _ => (readString cs).map fun s => (.string (.ofList s.1), s.2)
    | _ => readNumber? cs

/-- Reads the items of an array and the bracket that closes it. -/
def readItems (depth : Nat) : Nat → List Char → Option (List Value × List Char)
  | 0, _ => none
  | fuel + 1, cs =>
    match skipFiller false cs with
    | ']' :: rest => some ([], rest)
    | cs => do
      let (item, r) ← readValue depth fuel cs
      match skipFiller false r with
      | ',' :: r =>
        let (items, rest) ← readItems depth fuel r
        return (item :: items, rest)
      | ']' :: rest => return ([item], rest)
      | _ => none

/-- Reads the entries of a table between braces, behind those of `t`, and the brace that closes
it. -/
def readEntries (depth : Nat) : Nat → Table → List Char → Option (Table × List Char)
  | 0, _, _ => none
  | fuel + 1, t, cs => do
    let ((path, key), r) ← readName? cs
    let (v, r) ← readValue depth fuel (skipGaps (← readMark? '=' r))
    let t ← t.define? path key v
    match skipGaps r with
    | ',' :: r => readEntries depth fuel t r
    | '}' :: rest => return (t, rest)
    | _ => none

end

/-- What follows the rest of a line that holds nothing more than a comment. -/
def endLine? (cs : List Char) : Option (List Char) :=
  match skipComment (skipGaps cs) with
  | [] => some []
  | r => afterLineEnd? r

/-- Reads a line that starts with neither a gap nor a line end, given the document so far and the
path of its open table. -/
def readLine (fuel : Nat) (doc : Table) (header : List String) (cs : List Char) :
    Option (Table × List String × List Char) :=
  match cs with
  | '#' :: _ => (endLine? cs).map (doc, header, ·)
  | '[' :: '[' :: r => do
    let ((path, key), r) ← readName? r
    let rest ← endLine? (← readMark? ']' (← readMark? ']' r))
    return (← doc.openNext? path key, path ++ [key], rest)
  | '[' :: r => do
    let ((path, key), r) ← readName? r
    let rest ← endLine? (← readMark? ']' r)
    return (← doc.open? path key, path ++ [key], rest)
  | _ => do
    let ((path, key), r) ← readName? cs
    let (v, r) ← readValue 0 fuel (skipGaps (← readMark? '=' r))
    let rest ← endLine? r
    return (← doc.defineIn? header path key v, header, rest)

/-- Reads lines on. Every call takes away at least one of the `fuel` characters. -/
def readLines (doc : Table) (header : List String) : Nat → List Char → Option Table
  | 0, cs => if cs.isEmpty then some doc else none
  | fuel + 1, cs =>
    match skipLines cs with
    | [] => some doc
    | cs => do
      let (doc, header, rest) ← readLine (2 * fuel + 2) doc header cs
      readLines doc header fuel rest

/-- The entries of a document. A byte order mark in front of it does not count. -/
def parse? (text : String) : Option Table :=
  let cs := match text.toList with
    | '\uFEFF' :: r => r
    | cs => cs
  readLines [] [] (cs.length + 1) cs

end TestImpact.Toml
