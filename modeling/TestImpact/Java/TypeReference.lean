import TestImpact.Java.Keyword
import TestImpact.Java.Token

/-!
# Names in type position

`references` collects the simple names that stand where a source names a type. It needs no grammar:
a name counts by the token in front of it and the two tokens behind it, and an opening angle bracket
starts a list of type arguments if everything up to the closing one can be a part of such a list.
Main statement: an argument list that is found ends at a closing angle bracket and loses nothing
(`append_of_argumentList?`).
-/

namespace TestImpact.Java

/-- The token may stand in a list of type arguments in front of `next`. Brackets are counted
elsewhere. -/
def fitsArguments (t : Token) (next : Option Token) : Bool :=
  match t with
  | .word w => !isReserved w || w = "extends" || w = "super"
  | .mark '&' => next ≠ some (.mark '&')
  | .mark '?' =>
    next = some (.mark '>') || next = some (.mark ',') || next = some (.word "extends") ||
      next = some (.word "super")
  | .mark '.' | .mark ',' | .mark '[' | .mark ']' | .mark '@' => true
  | _ => false

/-- Splits behind an opening angle bracket at the one that closes the list of type arguments: what
stands inside and what follows. There is no such list if something inside cannot belong to one.
`depth` further brackets are open. -/
def argumentList? (depth : Nat) : List Token → Option (List Token × List Token)
  | [] => none
  | t :: ts =>
    if t = .mark '<' then (argumentList? (depth + 1) ts).map fun s => (t :: s.1, s.2)
    else if t = .mark '>' then
      match depth with
      | 0 => some ([], ts)
      | d + 1 => (argumentList? d ts).map fun s => (t :: s.1, s.2)
    else if fitsArguments t ts.head? then (argumentList? depth ts).map fun s => (t :: s.1, s.2)
    else none

/-- An argument list that is found ends at a closing angle bracket. -/
theorem append_of_argumentList? {depth : Nat} {ts inside rest : List Token}
    (h : argumentList? depth ts = some (inside, rest)) : ts = inside ++ .mark '>' :: rest := by
  fun_induction argumentList? depth ts generalizing inside rest with
  | case1 => cases h
  | case3 => cases h; rfl
  | case2 _ _ ih | case4 _ _ _ ih | case5 _ _ _ _ _ _ ih =>
    obtain ⟨⟨i, r⟩, hi, he⟩ := Option.map_eq_some_iff.1 h
    cases he
    rw [ih hi]
    rfl
  | case6 => cases h

/-- The last segment of the dotted name that a list starts with, and what follows the name. `last`
is the segment in front of the list. -/
def dottedName (last : Option String) : List Token → Option String × List Token
  | .word n :: .mark '.' :: .word m :: r =>
    if isReserved n then (last, .word n :: .mark '.' :: .word m :: r)
    else dottedName (some n) (.word m :: r)
  | .word n :: r => if isReserved n then (last, .word n :: r) else (some n, r)
  | ts => (last, ts)

/-- What follows a dotted name is no longer than the list. -/
theorem length_dottedName (last : Option String) (ts : List Token) :
    (dottedName last ts).2.length ≤ ts.length := by
  fun_induction dottedName last ts <;> simp_all; omega

/-- What follows the type arguments that a list starts with, if these can be read. -/
def afterArguments? : List Token → Option (List Token)
  | .mark '<' :: ts => (argumentList? 0 ts).map (·.2)
  | ts => some ts

/-- What follows type arguments is no longer than the list. -/
theorem length_of_afterArguments? {ts rest : List Token} (h : afterArguments? ts = some rest) :
    rest.length ≤ ts.length := by
  unfold afterArguments? at h
  split at h
  · obtain ⟨⟨i, r⟩, hi, rfl⟩ := Option.map_eq_some_iff.1 h
    rw [append_of_argumentList? hi]
    simp
    omega
  · cases h
    exact Nat.le_refl _

/-- The last segments of the names in a list of types that commas or `&` separate. -/
def listedTypes (ts : List Token) : List String :=
  match hn : dottedName none ts with
  | (none, _) => []
  | (some name, after) =>
    match ha : afterArguments? after with
    | some (t :: rest) =>
      have : rest.length < ts.length := by
        have h₁ := length_of_afterArguments? ha
        have h₂ := length_dottedName none ts
        rw [hn] at h₂
        simp only [List.length_cons] at h₁ h₂
        omega
      if t = .mark ',' ∨ t = .mark '&' then name :: listedTypes rest else [name]
    | _ => [name]
termination_by ts.length

/-- The name starts with an ASCII capital letter. -/
def isCapitalized (name : String) : Bool := name.toList.head?.any Char.isUpper

/-- A token that may follow the closing parenthesis of a cast. -/
def startsOperand : Token → Bool
  | .word w => !isKeyword w || w = "new" || w = "this"
  | .literal => true
  | t => t = .mark '('

/-- A name stands for a type by the tokens around it. -/
def isTypePosition (prev : Option Token) (name : String) (next after : Option Token) : Bool :=
  match next with
  | some (.word w) => !isKeyword w
  | some .ellipsis | some .doubleColon => true
  | some (.mark '[') => after = some (.mark ']')
  | some (.mark '.') =>
    match after with
    | some (.word m) => m = "class" || isCapitalized name && isCapitalized m
    | _ => false
  | some (.mark ')') =>
    prev = some (.mark '(') && isCapitalized name && after.any startsOperand
  | some (.mark '|') =>
    (prev = some (.mark '(') || prev = some (.mark '|')) && isCapitalized name
  | _ => false

/-- The words of a token list. -/
def wordsOf (ts : List Token) : List String :=
  ts.filterMap fun
    | .word w => some w
    | _ => none

/-- The names that one token, between `prev` and `ts`, puts in type position. -/
def namesAt (prev : Option Token) (t : Token) (ts : List Token) : List String :=
  match t with
  | .mark '<' =>
    match argumentList? 0 ts with
    | some (inside, _) => wordsOf (prev.toList ++ inside)
    | none => []
  | .word "new" | .word "instanceof" => (dottedName none ts).1.toList
  | .word "extends" | .word "implements" | .word "throws" => listedTypes ts
  | .word name =>
    if prev ≠ some (.mark '@') && isTypePosition prev name ts.head? ts[1]? then [name] else []
  | _ => []

/-- The names in type position in a token list behind `prev`, keywords included. -/
def mentioned (prev : Option Token) : List Token → List String
  | [] => []
  | t :: ts => namesAt prev t ts ++ mentioned (some t) ts

/-- The simple names in type position in a token list. -/
def references (ts : List Token) : List String := (mentioned none ts).filter (!isKeyword ·)

end TestImpact.Java
