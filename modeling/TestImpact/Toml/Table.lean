/-!
# Tables of a TOML document

Values, and the rules by which a document puts them together: a name is given a value once, a table
is opened by one header, and dotted names extend only tables that came about by dotted names. Main
statement: a name that a table has is never given a value again (`define?_eq_none_of_mem`).
-/

namespace TestImpact.Toml

/-- How a table has come about. -/
inductive Origin
  /-- By a header of its own; also the document itself. -/
  | header
  /-- As a part of the header of an inner table. -/
  | implied
  /-- As a part of a dotted name. -/
  | dotted
  /-- Between braces. Such a table is closed. -/
  | inline
deriving DecidableEq, Repr

/-- A value. Floats are told apart from integers but have no value here. -/
inductive Value
  | string (s : String)
  | integer (n : Int)
  | float
  | boolean (b : Bool)
  /-- A date, a time or both, in standard form. -/
  | dateTime (text : String)
  | array (items : List Value)
  | table (origin : Origin) (entries : List (String × Value))
  /-- The tables of headers in double brackets, of which the last one is open. -/
  | tables (all : List (List (String × Value)))
deriving Repr

/-- The entries of a table in the order of their definition. -/
abbrev Table := List (String × Value)

namespace Table

/-- The table with the value in place of the one that the name had. -/
def replace (t : Table) (key : String) (v : Value) : Table :=
  t.map fun e => if e.1 = key then (key, v) else e

/-- Changes the table that a path leads to by `f`, which is told how that table has come about.
Tables on the way are made where there are none. A path by a dotted name passes no table that has a
header; no path passes a value. -/
def alter (byName : Bool) (f : Origin → Table → Option Table) (origin : Origin) :
    List String → Table → Option Table
  | [], t => f origin t
  | key :: path, t =>
    match t.lookup key with
    | none => do
      let origin := if byName then .dotted else .implied
      return t ++ [(key, .table origin (← alter byName f origin path []))]
    | some (.table o inner) =>
      if o = .inline ∨ (byName ∧ o = .header) then none
      else do return t.replace key (.table o (← alter byName f o path inner))
    | some (.tables all) => do
      let inner ← alter byName f .header path (← all.getLast?)
      return t.replace key (.tables (all.dropLast ++ [inner]))
    | some _ => none

/-- Gives the name at the end of a dotted name a value. -/
def define? (path : List String) (key : String) (v : Value) (t : Table) : Option Table :=
  alter true (fun origin t =>
    if (path ≠ [] ∧ origin ≠ .dotted) ∨ (t.lookup key).isSome then none
    else some (t ++ [(key, v)])) .header path t

/-- Opens the table of a header. -/
def open? (path : List String) (key : String) (t : Table) : Option Table :=
  alter false (fun _ t =>
    match t.lookup key with
    | none => some (t ++ [(key, .table .header [])])
    | some (.table .implied inner) => some (t.replace key (.table .header inner))
    | some _ => none) .header path t

/-- Opens one more table of a header in double brackets. -/
def openNext? (path : List String) (key : String) (t : Table) : Option Table :=
  alter false (fun _ t =>
    match t.lookup key with
    | none => some (t ++ [(key, .tables [[]])])
    | some (.tables all) => some (t.replace key (.tables (all ++ [[]])))
    | some _ => none) .header path t

/-- Gives a dotted name a value in the table that a header's path leads to. -/
def defineIn? (header path : List String) (key : String) (v : Value) (t : Table) : Option Table :=
  alter false (fun _ t => define? path key v t) .header header t

/-- A name that a table has is not given a value again. -/
theorem define?_eq_none_of_mem {t : Table} {key : String} {v w : Value}
    (h : t.lookup key = some w) : define? [] key v t = none := by
  simp [define?, alter, h]

end Table

end TestImpact.Toml
