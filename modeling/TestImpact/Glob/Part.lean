import TestImpact.Glob.ByteExpr
import TestImpact.Text.Hexadecimal
import TestImpact.Text.Utf8

/-!
# Parts of a path pattern

A pattern is a list of parts: symbols, and groups of branches that are lists of parts again. Values
are computed by a fold over the parts (`Part.Algebra`): the expression over bytes that they mean,
the text of that expression, and its shape, which tells how deep it is nested.
-/

namespace TestImpact.Glob

/-- A part of a pattern that is no group. -/
inductive Symbol
  | char (c : Char)
  /-- One byte of a name. -/
  | anyByte
  /-- Any number of bytes of a name. -/
  | anyBytes
  /-- One byte of a class, given by closed ranges of it or of its complement. -/
  | byteClass (negated : Bool) (ranges : List (Char × Char))
  /-- Two stars with the slash behind them at the start of a branch. -/
  | leading
  /-- Two stars with the slash in front of them at the end of a branch. -/
  | trailing
  /-- Two stars with the slashes around them. -/
  | between
deriving DecidableEq, Repr

/-- A part of a pattern. -/
inductive Part
  | symbol (s : Symbol)
  | group (branches : List (List Part))
deriving Repr

namespace Part

/-- What to make of a symbol, of the values in a branch, and of the values of a group's branches. -/
structure Algebra (α β : Type) where
  symbol : Symbol → α
  branch : List α → β
  group : List β → α

variable {α β : Type}

mutual

/-- The value of a part. -/
def fold (a : Algebra α β) : Part → α
  | .symbol s => a.symbol s
  | .group branches => a.group (foldBranches a branches)

/-- The values of the branches of a group. -/
def foldBranches (a : Algebra α β) : List (List Part) → List β
  | [] => []
  | parts :: r => a.branch (foldParts a parts) :: foldBranches a r

/-- The values of the parts of a branch. -/
def foldParts (a : Algebra α β) : List Part → List α
  | [] => []
  | p :: r => fold a p :: foldParts a r

end

/-- The part is a group without branches, which stands for nothing at all. -/
def isBlank : Part → Bool
  | group [] => true
  | _ => false

/-- The character that a part stands for. -/
def char? : Part → Option Char
  | symbol (.char c) => some c
  | _ => none

end Part

/-! ## The expression of parts -/

/-- The byte of a slash. -/
def slash : UInt8 := 0x2F

namespace ByteExpr

/-- One given byte. -/
def exactly (b : UInt8) : ByteExpr := byte ⟨false, [(b, b)]⟩

/-- One byte other than a slash. -/
def nameByte : ByteExpr := byte ⟨true, [(slash, slash)]⟩

/-- Any number of bytes other than a slash. -/
def nameBytes : ByteExpr := run ⟨true, [(slash, slash)]⟩

/-- Any bytes at all. -/
def anything : ByteExpr := run ⟨true, []⟩

/-- The expressions one after another. -/
def sequence (es : List ByteExpr) : ByteExpr := es.foldr seq empty

/-- One of the expressions; nothing at all if there is none. -/
def oneOf : List ByteExpr → ByteExpr
  | [] => empty
  | [e] => e
  | e :: es => either e (oneOf es)

end ByteExpr

/-- The byte ranges that a range of a class admits. The bytes of two different ends form one text,
in which the last byte of the first end and the first byte of the second one are the ends of a
range. -/
def classBytes (r : Char × Char) : List (UInt8 × UInt8) :=
  let first := Utf8.encodeChar r.1
  let last := Utf8.encodeChar r.2
  if r.1 = r.2 then first.map fun b => (b, b)
  else match first.getLast?, last.head? with
    | some lo, some hi =>
      (first.dropLast.map fun b => (b, b)) ++ (lo, hi) :: (last.drop 1).map fun b => (b, b)
    | _, _ => []

/-- The expression of a symbol. -/
def Symbol.expr : Symbol → ByteExpr
  | char c => .sequence ((Utf8.encodeChar c).map .exactly)
  | anyByte => .nameByte
  | anyBytes => .nameBytes
  | byteClass negated ranges => .byte ⟨negated, ranges.flatMap classBytes⟩
  | leading => .either (.either .empty (.exactly slash)) (.seq .anything (.exactly slash))
  | trailing => .seq (.exactly slash) .anything
  | between => .either (.exactly slash) (.seq (.exactly slash) (.seq .anything (.exactly slash)))

/-- The expression of parts. -/
def partsExpr (parts : List Part) : ByteExpr :=
  .sequence (Part.foldParts ⟨Symbol.expr, .sequence, .oneOf⟩ parts)

/-! ## The text of the expression -/

/-- A character as itself. A mark of expressions is escaped, and beyond ASCII each byte is written
by its code. -/
def escapedChar (c : Char) : String :=
  if c.toNat < 0x80 then
    if "\\.+*?()|[]\x7b\x7d^$#&-~".toList.contains c then .ofList ['\\', c] else .singleton c
  else String.join ((Utf8.encodeChar c).map fun b => "\\x" ++ .ofList (Hexadecimal.digits [b]))

/-- A range as its end, or as both ends with a dash between them if they differ. -/
def rangeText (r : Char × Char) : String :=
  if r.1 = r.2 then escapedChar r.1 else escapedChar r.1 ++ "-" ++ escapedChar r.2

/-- The text of a symbol's expression. -/
def Symbol.text : Symbol → String
  | char c => escapedChar c
  | anyByte => "[^/]"
  | anyBytes => "[^/]*"
  | byteClass negated ranges =>
    (if negated then "[^" else "[") ++ String.join (ranges.map rangeText) ++ "]"
  | leading => "(?:/?|.*/)"
  | trailing => "/.*"
  | between => "(?:/|/.*/)"

/-- The text of a group's expression. -/
def groupText (branches : List String) : String :=
  if branches.isEmpty then "" else "(?:" ++ "|".intercalate branches ++ ")"

/-- The text of the expression of parts. -/
def partsText (parts : List Part) : String :=
  String.join (Part.foldParts ⟨Symbol.text, String.join, groupText⟩ parts)

/-! ## The shape of the expression -/

/-- How many pieces an expression adds to a sequence, and how many nodes with something inside lie
on its longest way down. -/
structure Shape where
  width : Nat
  nesting : Nat
deriving DecidableEq, Repr

namespace Shape

/-- The pieces one after another. -/
def sequence (shapes : List Shape) : Shape :=
  shapes.foldl (fun a s => ⟨a.width + s.width, max a.nesting s.nesting⟩) ⟨0, 0⟩

/-- The shape of a branch: several pieces are below a node of their own. -/
def branch (shapes : List Shape) : Shape :=
  let s := sequence shapes
  if s.width ≤ 1 then s else ⟨1, s.nesting + 1⟩

/-- The shape of a group: a node, and one more if it has several branches. -/
def group : List Shape → Shape
  | [] => ⟨0, 0⟩
  | [s] => ⟨1, s.nesting + 1⟩
  | branches => ⟨1, (sequence branches).nesting + 2⟩

end Shape

/-- The shape of a symbol's expression. -/
def Symbol.shape : Symbol → Shape
  | char c => ⟨(Utf8.encodeChar c).length, 0⟩
  | anyByte => ⟨1, 1⟩
  | anyBytes => ⟨1, 2⟩
  | byteClass _ ranges => ⟨1, if (ranges.flatMap classBytes).length = 1 then 1 else 2⟩
  | leading => ⟨1, 4⟩
  | trailing => ⟨2, 1⟩
  | between => ⟨1, 4⟩

/-- How deep the expression of parts is nested, with the sequence that they form. -/
def partsNesting (parts : List Part) : Nat :=
  (Shape.sequence (Part.foldParts ⟨Symbol.shape, Shape.branch, Shape.group⟩ parts)).nesting + 1

end TestImpact.Glob
