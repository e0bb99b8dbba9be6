/-!
# Tokens of a Java source

Tokens and the operations on token lists that know nothing of declarations: the text of a token
list, the split of a list at a closing bracket, and the parts between commas. Main statement: a
split at a closing bracket loses nothing (`append_of_splitClose`).
-/

namespace TestImpact.Java

/-- A token of a Java source. The content of literals is not kept. -/
inductive Token
  | word (text : String)
  /-- A single character that is no part of a longer token. -/
  | mark (c : Char)
  | ellipsis
  /-- The double colon of a method reference. -/
  | doubleColon
  /-- A number, string, character or text block. -/
  | literal
deriving DecidableEq, Repr

namespace Token

/-- The text of a token, `_` for a literal. -/
def text : Token → String
  | word s => s
  | mark c => .singleton c
  | ellipsis => "..."
  | doubleColon => "::"
  | literal => "_"

/-- The token is a word. -/
def isWord : Token → Bool
  | word _ => true
  | _ => false

end Token

/-- The texts of the tokens one after another. -/
def joinTokens (ts : List Token) : String := ts.foldr (fun t s => t.text ++ s) ""

/-- Splits behind an opening mark `o` at the mark `c` that closes it: what stands inside and what
follows. Only these two marks count; `depth` further ones are open. -/
def splitClose (o c : Char) (depth : Nat) : List Token → Option (List Token × List Token)
  | [] => none
  | t :: ts =>
    if t = .mark o then (splitClose o c (depth + 1) ts).map fun s => (t :: s.1, s.2)
    else if t = .mark c then
      match depth with
      | 0 => some ([], ts)
      | d + 1 => (splitClose o c d ts).map fun s => (t :: s.1, s.2)
    else (splitClose o c depth ts).map fun s => (t :: s.1, s.2)

/-- What follows the mark `c` that closes the mark `o` in front of the list, nothing if it is never
closed. -/
def afterClose (o c : Char) (ts : List Token) : List Token :=
  match splitClose o c 0 ts with
  | some (_, rest) => rest
  | none => []

/-- A split at a closing mark loses nothing but that mark. -/
theorem append_of_splitClose {o c : Char} {depth : Nat} {ts inside rest : List Token}
    (h : splitClose o c depth ts = some (inside, rest)) : ts = inside ++ .mark c :: rest := by
  fun_induction splitClose o c depth ts generalizing inside rest with
  | case1 => cases h
  | case3 => cases h; rfl
  | case2 _ _ ih | case4 _ _ _ ih | case5 _ _ _ _ _ ih =>
    obtain ⟨⟨i, r⟩, hi, he⟩ := Option.map_eq_some_iff.1 h
    cases he
    rw [ih hi]
    rfl

/-- What follows a closing bracket is shorter than the list. -/
theorem length_of_splitClose {o c : Char} {depth : Nat} {ts inside rest : List Token}
    (h : splitClose o c depth ts = some (inside, rest)) : rest.length < ts.length := by
  rw [append_of_splitClose h]
  simp
  omega

/-- What follows is no longer than the list, even if there is no closing bracket. -/
theorem length_afterClose (o c : Char) (ts : List Token) :
    (afterClose o c ts).length ≤ ts.length := by
  unfold afterClose
  split
  · next h => exact Nat.le_of_lt (length_of_splitClose h)
  · simp

/-- The parts between the commas outside `<>`, `()` and `[]`, the last one also if it is empty.
`depth` is the number of open brackets less that of closed ones. -/
def commaParts (depth : Int) : List Token → List (List Token)
  | [] => [[]]
  | t :: ts =>
    if t = .mark ',' ∧ depth = 0 then [] :: commaParts 0 ts
    else
      let depth := match t with
        | .mark '<' | .mark '(' | .mark '[' => depth + 1
        | .mark '>' | .mark ')' | .mark ']' => depth - 1
        | _ => depth
      match commaParts depth ts with
      | [] => [[t]]
      | p :: ps => (t :: p) :: ps

/-- The parts between the commas outside brackets; nothing follows a comma at the end. -/
def topLevelParts (ts : List Token) : List (List Token) :=
  let parts := commaParts 0 ts
  if parts.getLast? = some [] then parts.dropLast else parts

/-- The list without the pairs of empty brackets at its end. -/
def dropArrayMarks (ts : List Token) : List Token := (go ts.reverse).reverse
where
  go : List Token → List Token
    | .mark ']' :: .mark '[' :: r => go r
    | r => r

end TestImpact.Java
