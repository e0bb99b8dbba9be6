import TestImpact.Glob.Part

/-!
# The reader of path patterns

In a pattern `?` stands for one byte of a name, `*` for any number of them, `**` between slashes for
any folders, `[a-z]` for one byte of a class and `{a,b}` for either branch; a backslash takes away
the meaning of the character behind it. `read?` reads a pattern into its parts, or says what is
wrong with it.
-/

namespace TestImpact.Glob

/-- What is wrong with a pattern. -/
inductive PatternError
  | unclosedClass
  | invalidRange (first last : Char)
  | unopenedGroup
  | unclosedGroup
  | danglingEscape
deriving DecidableEq, Repr

/-- The wording of a fault in a pattern. -/
def PatternError.message : PatternError → String
  | unclosedClass => "unclosed character class; missing ']'"
  | invalidRange a b => "invalid range; '" ++ .singleton a ++ "' > '" ++ .singleton b ++ "'"
  | unopenedGroup => "unopened alternate group; missing '\x7b' (maybe escape '\x7d' with '[\x7d]'?)"
  | unclosedGroup => "unclosed alternate group; missing '\x7d' (maybe escape '\x7b' with '[\x7b]'?)"
  | danglingEscape => "dangling '\\'"

/-! ## Reading a pattern -/

/-- Reads a class up to the bracket that closes it. `ranges` holds what has been read, the last
range first; `first` says that nothing has been read, `isOpen` that a dash waits for the end of a
range. -/
def readClass (ranges : List (Char × Char)) (first isOpen : Bool) :
    List Char → Except PatternError (List (Char × Char) × List Char)
  | [] => .error .unclosedClass
  | c :: r =>
    if c = ']' && !first then
      .ok ((if isOpen then ('-', '-') :: ranges else ranges).reverse, r)
    else if c = '-' && !first && !isOpen then readClass ranges false true r
    else match isOpen, ranges with
      | true, (a, _) :: before =>
        if c < a then .error (.invalidRange a c) else readClass ((a, c) :: before) false false r
      | _, _ => readClass ((c, c) :: ranges) false false r

/-- What follows a class of characters is no longer than the pattern. -/
theorem length_of_readClass {ranges out : List (Char × Char)} {first isOpen : Bool}
    {cs rest : List Char} (h : readClass ranges first isOpen cs = .ok (out, rest)) :
    rest.length ≤ cs.length := by
  fun_induction readClass ranges first isOpen cs <;> simp_all <;> omega

/-- A class behind its opening bracket, and what follows it. -/
def classPart (cs : List Char) : Except PatternError (Part × List Char) := do
  let negated := cs.head?.any fun c => c = '!' || c = '^'
  let (ranges, rest) ← readClass [] true false (if negated then cs.drop 1 else cs)
  return (.symbol (.byteClass negated ranges), rest)

/-- A group that is being read: its finished branches, the last one first, and the parts in front of
it. The parts of each branch and those in front are listed last one first too. -/
structure Group where
  branches : List (List Part)
  around : List Part
deriving Repr

/-- The group when its last branch, `parts`, has been read. A branch that stands for nothing at all
is no choice. -/
def Group.close (g : Group) (parts : List Part) : Part :=
  .group (((parts :: g.branches).reverse.filter fun b => !b.all Part.isBlank).map List.reverse)

/-- The parts of a branch behind two stars that follow the character `prev` and stand in front of
`r`, and whether a slash at the start of `r` belongs to them. -/
def doubleStar (grouped : Bool) (prev : Option Char) (parts : List Part) (r : List Char) :
    List Part × Bool :=
  let stars := (.symbol .anyBytes :: .symbol .anyBytes :: parts, false)
  let absorbed (s : Symbol) :=
    match parts with
    | .symbol .leading :: _ | .symbol .trailing :: _ => parts
    | _ => .symbol s :: parts.drop 1
  if parts.isEmpty then if r.head?.all (· = '/') then ([.symbol .leading], true) else stars
  else if prev ≠ some '/' && !(grouped && (prev = some ',' || prev = some '{')) then stars
  else match r.head? with
    | none => (absorbed .trailing, false)
    | some '/' => (absorbed .between, true)
    | some c => if grouped && (c = ',' || c = '}') then (absorbed .trailing, false) else stars

/-- Reads a pattern on. `groups` are the open groups, the innermost one first; `prev` is the
character that has been read last; `parts` are the parts of the branch at hand, last one first. -/
def readParts (groups : List Group) (prev : Option Char) (parts : List Part) (cs : List Char) :
    Except PatternError (List Part) :=
  match cs with
  | [] => if groups.isEmpty then .ok parts else .error .unclosedGroup
  | '?' :: r => readParts groups (some '?') (.symbol .anyByte :: parts) r
  | '*' :: '*' :: r =>
    let (parts, withSlash) := doubleStar (!groups.isEmpty) prev parts r
    if withSlash then readParts groups (some '/') parts (r.drop 1)
    else readParts groups (some '*') parts r
  | '*' :: r => readParts groups (some '*') (.symbol .anyBytes :: parts) r
  | '[' :: r =>
    match h : classPart r with
    | .error e => .error e
    | .ok (part, rest) =>
      have : rest.length ≤ r.length := by
        simp only [classPart, bind, Except.bind, pure, Except.pure] at h
        split at h
        · cases h
        · next hc =>
          cases h
          have := length_of_readClass hc
          split at this
          · exact Nat.le_trans this (by simp)
          · exact this
      readParts groups (some ']') (part :: parts) rest
  | '{' :: r => readParts (⟨[], parts⟩ :: groups) (some '{') [] r
  | '}' :: r =>
    match groups with
    | [] => .error .unopenedGroup
    | g :: outer => readParts outer (some '}') (g.close parts :: g.around) r
  | ',' :: r =>
    match groups with
    | [] => readParts [] (some ',') (.symbol (.char ',') :: parts) r
    | g :: outer => readParts ({ g with branches := parts :: g.branches } :: outer)
        (some ',') [] r
  | ['\\'] => .error .danglingEscape
  | '\\' :: c :: r => readParts groups (some c) (.symbol (.char c) :: parts) r
  | c :: r => readParts groups (some c) (.symbol (.char c) :: parts) r
termination_by cs.length
decreasing_by all_goals simp only [List.length_cons, List.length_drop]; omega

/-- The parts of a pattern. -/
def read? (pattern : String) : Except PatternError (List Part) :=
  (readParts [] none [] pattern.toList).map List.reverse

end TestImpact.Glob
