import TestImpact.Java.Declaration
import TestImpact.Java.Malformed

/-!
# Members of a source

`members` walks the tokens of a source behind its imports and reads what is declared there. The
tokens since the last member make up the segment at hand; a `;` or a `{` outside parentheses and
brackets ends it and tells what it is. The bodies of types are walked, all other blocks are skipped
as a whole.
-/

namespace TestImpact.Java

/-- What a source declares, in the order of its text. -/
inductive Member
  /-- A type and the raw types of its record components. -/
  | type (decl : TypeDecl) (components : List String)
  | field (type : String)
  | method (returns : Option String) (parameters : List String)
deriving DecidableEq, Repr

namespace Member

/-- The declared type, if the member is one. -/
def decl? : Member → Option TypeDecl
  | type d _ => some d
  | _ => none

/-- The raw types of the fields; the components of a record are fields. -/
def fieldTypes : Member → List String
  | type _ components => components
  | field t => [t]
  | method .. => []

/-- The raw types of the parameters; the components of a record are parameters of its
constructor. -/
def parameterTypes : Member → List String
  | type _ components => components
  | field _ => []
  | method _ ps => ps

/-- The raw return type. -/
def returnTypes : Member → List String
  | method (some t) _ => [t]
  | _ => []

end Member

/-- The first `(` or `=` outside type arguments. -/
def firstOpener (depth : Int) : List Token → Option Char
  | [] => none
  | t :: ts =>
    if t = .mark '(' ∧ depth = 0 then some '('
    else if t = .mark '=' ∧ depth = 0 then some '='
    else if t = .mark '<' then firstOpener (depth + 1) ts
    else if t = .mark '>' then firstOpener (depth - 1) ts
    else firstOpener depth ts

/-- What the segment in front of a block makes of it. -/
inductive BlockRole
  /-- The body of a type. -/
  | body (kind : DeclKind) (name : String) (header : List Token)
  /-- The body of a method or constructor. -/
  | method
  /-- A part of a field's value: array elements, a lambda or an anonymous class. -/
  | value
  | initializer
deriving DecidableEq, Repr

/-- The role of the block that follows a segment. -/
def blockRole (segment : List Token) : BlockRole :=
  let ts := dropModifiers segment
  match declaration? ts with
  | some (kind, name, header) => .body kind name header
  | none =>
    match firstOpener 0 ts with
    | some '(' => .method
    | some '=' => .value
    | _ => .initializer

/-- The member that a segment in front of a `;` declares, if it declares one. -/
def statementMember? (segment : List Token) : Option Member :=
  let ts := dropModifiers segment
  if ts = [] ∨ (declaration? ts).isSome then none
  else if firstOpener 0 ts = some '(' then
    let s := signature ts
    some (.method s.1 s.2)
  else (fieldType? ts).map .field

/-- What a skipped block of the given role leaves behind: the member it completes and the reversed
segment that goes on. A value stays a part of its field's segment. -/
def skipBlock (segment inside : List Token) : BlockRole → Option Member × List Token
  | .method =>
    let s := signature (dropModifiers segment.reverse)
    (some (.method s.1 s.2), [])
  | .value => (none, .mark '}' :: (inside.reverse ++ .mark '{' :: segment))
  | _ => (none, [])

/-- Walks on from a place in the source. `outer` holds the qualified names of the types around it,
the innermost one first; `nest` is the number of open parentheses and brackets since the segment's
place; `constants` says that it is in front of the first `;` of an enum's body; `segment` holds the
tokens of the segment at hand, the last one first. -/
def walk (outer : List String) (nest : Nat) (constants : Bool) (segment : List Token) :
    List Token → Except Malformed (List Member)
  | [] => if outer ≠ [] ∨ nest ≠ 0 then .error .unexpectedEnd else .ok []
  | t :: ts =>
    match t with
    | .mark '(' | .mark '[' => walk outer (nest + 1) constants (t :: segment) ts
    | .mark ')' =>
      match nest with
      | 0 => .error .unbalancedParenthesis
      | n + 1 => walk outer n constants (t :: segment) ts
    | .mark ']' =>
      match nest with
      | 0 => .error .unbalancedBracket
      | n + 1 => walk outer n constants (t :: segment) ts
    | .mark ';' =>
      if nest ≠ 0 then walk outer nest constants (t :: segment) ts
      else if constants then walk outer 0 false [] ts
      else (walk outer 0 false [] ts).map ((statementMember? segment.reverse).toList ++ ·)
    | .mark '}' =>
      if nest ≠ 0 then walk outer nest constants (t :: segment) ts
      else match outer with
        | [] => .error .unexpectedBrace
        | _ :: around => walk around 0 false [] ts
    | .mark '{' =>
      match if nest ≠ 0 ∨ constants then .value else blockRole segment.reverse with
      | .body kind name header =>
        let (decl, components) := readHeader (outer.headD "") kind name header
        (walk (decl.qualified :: outer) 0 (kind = .enumType) [] ts).map (.type decl components :: ·)
      | role =>
        match h : splitClose '{' '}' 0 ts with
        | none => .error .unclosedBlock
        | some (inside, rest) =>
          have := length_of_splitClose h
          let (member, segment) := skipBlock segment inside role
          (walk outer nest constants segment rest).map (member.toList ++ ·)
    | _ => walk outer nest constants (t :: segment) ts
termination_by ts => ts.length
decreasing_by all_goals simp only [List.length_cons]; omega

/-- The members that the tokens behind a source's imports declare. -/
def members (ts : List Token) : Except Malformed (List Member) := walk [] 0 false [] ts

end TestImpact.Java
