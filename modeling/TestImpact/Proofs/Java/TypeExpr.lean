import TestImpact.Java.Lexer

/-!
# Type expressions

The types that a source declares something with: a name or the word of a primitive type, type
arguments at any depth with or without bounds, and array brackets. `TypeExpr.tokens` writes a type,
`TypeExpr.raw` is its text without blanks. Main statement: what holds of words and dots, of array
brackets, and is kept by appending and by putting a list of arguments between angle brackets holds
of every type (`TypeExpr.tokens_closed`).
-/

namespace TestImpact.Java

/-! ## Names -/

/-- The text is a word without blanks and no keyword. -/
def isIdentifier (s : String) : Bool :=
  s.toList.head?.any isWordStart && s.toList.all (fun c => isWordPart c && !isBlank c) &&
    !isKeyword s

/-- A word that may be declared as a name. -/
structure Identifier where
  text : String
  valid : isIdentifier text = true := by decide +kernel

/-- The characters of an identifier belong to words, and none is a blank. -/
theorem Identifier.isWordPart {i : Identifier} {c : Char} (hc : c ∈ i.text.toList) :
    Java.isWordPart c = true ∧ isBlank c = false := by
  have hv := i.valid
  simp only [isIdentifier, Bool.and_eq_true, List.all_eq_true] at hv
  simpa using hv.1.2 c hc

/-- An identifier has a first character, which starts a word. -/
theorem Identifier.exists_cons (i : Identifier) :
    ∃ c r, i.text.toList = c :: r ∧ isWordStart c = true := by
  have hv := i.valid
  simp only [isIdentifier, Bool.and_eq_true] at hv
  cases hl : i.text.toList with
  | nil => rw [hl] at hv; exact absurd hv.1.1 (by decide)
  | cons c r => rw [hl] at hv; exact ⟨c, r, rfl, hv.1.1⟩

/-- An identifier is not empty. -/
theorem Identifier.toList_ne_nil (i : Identifier) : i.text.toList ≠ [] := by
  obtain ⟨c, r, hc, -⟩ := i.exists_cons
  rw [hc]
  exact List.cons_ne_nil c r

/-- An identifier is no keyword. -/
theorem Identifier.not_isKeyword (i : Identifier) : isKeyword i.text = false := by
  have hv := i.valid
  simp only [isIdentifier, Bool.and_eq_true] at hv
  simpa using hv.2

/-- A name of one or more segments. -/
structure DottedName where
  first : Identifier
  rest : List Identifier := []

/-- The name as it is written. -/
def DottedName.tokens (n : DottedName) : List Token :=
  .word n.first.text :: n.rest.flatMap fun i => [.mark '.', .word i.text]

/-- The text of the name. -/
def DottedName.text (n : DottedName) : String := joinTokens n.tokens

/-- The word of a primitive type. -/
structure Primitive where
  word : String
  valid : (isPrimitive word && word != "void") = true := by decide

/-- What a type is called in front of its arguments. -/
inductive TypeName
  | dotted (n : DottedName)
  | primitive (p : Primitive)

namespace TypeName

/-- The name as it is written. -/
def tokens : TypeName → List Token
  | dotted n => n.tokens
  | primitive p => [.word p.word]

/-- The text of the name. -/
def text (n : TypeName) : String := joinTokens n.tokens

end TypeName

/-! ## Types -/

/-- How a type argument restricts what it stands for. -/
inductive Bound
  | exact
  /-- `? extends` -/
  | upper
  /-- `? super` -/
  | lower
deriving DecidableEq

namespace Bound

/-- The word of a bound. -/
def word : Bound → String
  | exact => ""
  | upper => "extends"
  | lower => "super"

/-- The bound as it is written. -/
def tokens : Bound → List Token
  | exact => []
  | b => [.mark '?', .word b.word]

end Bound

mutual

/-- A type: its name, its type arguments, and the number of its pairs of array brackets. -/
inductive TypeExpr
  | mk (name : TypeName) (arguments : List TypeArgument) (dims : Nat)

/-- A type argument. -/
inductive TypeArgument
  /-- `?` -/
  | wildcard
  | type (bound : Bound) (t : TypeExpr)

end

/-- The type of a single name, with the given arguments and pairs of array brackets. -/
def TypeExpr.named (name : Identifier) (arguments : List TypeArgument := []) (dims : Nat := 0) :
    TypeExpr :=
  .mk (.dotted { first := name }) arguments dims

/-- Pairs of array brackets. -/
def dimTokens : Nat → List Token
  | 0 => []
  | n + 1 => .mark '[' :: .mark ']' :: dimTokens n

mutual

/-- The type as it is written. -/
def TypeExpr.tokens : TypeExpr → List Token
  | .mk name args dims => name.tokens ++ (argumentTokens args ++ dimTokens dims)

/-- The argument as it is written. -/
def TypeArgument.tokens : TypeArgument → List Token
  | .wildcard => [.mark '?']
  | .type bound t => bound.tokens ++ t.tokens

/-- A list of arguments between angle brackets, nothing for no arguments. -/
def argumentTokens : List TypeArgument → List Token
  | [] => []
  | a :: as => .mark '<' :: (a.tokens ++ moreArguments as)

/-- The arguments behind the first one and the closing bracket. -/
def moreArguments : List TypeArgument → List Token
  | [] => [.mark '>']
  | a :: as => .mark ',' :: (a.tokens ++ moreArguments as)

end

/-- The name of a type. -/
def TypeExpr.name : TypeExpr → TypeName
  | .mk name _ _ => name

mutual

/-- The bounds and names of all type arguments of a type, at any depth, from left to right. -/
def TypeExpr.mentions : TypeExpr → List (Bound × TypeName)
  | .mk _ args _ => argumentMentions args

/-- The bounds and names in a type argument. -/
def TypeArgument.mentions : TypeArgument → List (Bound × TypeName)
  | .wildcard => []
  | .type bound t => (bound, t.name) :: t.mentions

/-- The bounds and names in a list of type arguments. -/
def argumentMentions : List TypeArgument → List (Bound × TypeName)
  | [] => []
  | a :: as => a.mentions ++ argumentMentions as

end

/-- The text of a type without blanks. -/
def TypeExpr.raw (t : TypeExpr) : String := joinTokens t.tokens

/-! ## What holds of all types -/

/-- Properties of token lists that a type has if its parts have them: `Out` outside of angle
brackets, `In` between them, where commas stand. -/
structure TypeClosed (Out In : List Token → Prop) : Prop where
  nil : Out []
  append {a b : List Token} : Out a → Out b → Out (a ++ b)
  word {w : String} : isIdentifier w = true ∨ isPrimitive w = true → Out [.word w]
  dot : Out [.mark '.']
  brackets : Out [.mark '[', .mark ']']
  angles {a : List Token} : In a → Out (.mark '<' :: (a ++ [.mark '>']))
  bound {a : List Token} (b : Bound) : Out a → In (b.tokens ++ a)
  wildcard : In [.mark '?']
  comma {a b : List Token} : In a → In b → In (a ++ .mark ',' :: b)

section
variable {Out In : List Token → Prop}

/-- A property of types holds of a dotted name. -/
theorem TypeClosed.dottedName (hc : TypeClosed Out In) (n : DottedName) : Out n.tokens := by
  obtain ⟨first, rest⟩ := n
  refine hc.append (a := [.word first.text]) (hc.word (.inl first.valid)) ?_
  show Out (rest.flatMap fun i => [.mark '.', .word i.text])
  induction rest with
  | nil => exact hc.nil
  | cons i rest ih =>
    rw [List.flatMap_cons]
    exact hc.append (hc.append (a := [_]) hc.dot (hc.word (.inl i.valid))) ih

/-- A property of types holds of the name of a type. -/
theorem TypeClosed.typeName (hc : TypeClosed Out In) (n : TypeName) : Out n.tokens := by
  cases n with
  | dotted n => exact hc.dottedName n
  | primitive p =>
    have hp := p.valid
    rw [Bool.and_eq_true] at hp
    exact hc.word (.inr hp.1)

/-- A property of types holds of array brackets. -/
theorem TypeClosed.dimTokens (hc : TypeClosed Out In) (n : Nat) : Out (dimTokens n) := by
  induction n with
  | zero => exact hc.nil
  | succ n ih => exact hc.append (a := [_, _]) hc.brackets ih

mutual

/-- What is kept when types are put together holds of every type. -/
theorem TypeExpr.tokens_closed (hc : TypeClosed Out In) : ∀ t : TypeExpr, Out t.tokens
  | .mk name args dims => by
    rw [TypeExpr.tokens]
    exact hc.append (hc.typeName name)
      (hc.append (argumentTokens_closed hc args) (hc.dimTokens dims))

/-- A property of what stands between angle brackets holds of an argument. -/
theorem TypeArgument.tokens_closed (hc : TypeClosed Out In) : ∀ a : TypeArgument, In a.tokens
  | .wildcard => by rw [TypeArgument.tokens]; exact hc.wildcard
  | .type bound t => by rw [TypeArgument.tokens]; exact hc.bound bound (t.tokens_closed hc)

/-- A property of types holds of a list of arguments with its brackets. -/
theorem argumentTokens_closed (hc : TypeClosed Out In) :
    ∀ args : List TypeArgument, Out (argumentTokens args)
  | [] => by rw [argumentTokens]; exact hc.nil
  | a :: as => by
    obtain ⟨inside, hi, he⟩ := moreArguments_closed hc as (a.tokens_closed hc)
    rw [argumentTokens, he]
    exact hc.angles hi

/-- A property of what stands between angle brackets goes over to further arguments. -/
theorem moreArguments_closed (hc : TypeClosed Out In) :
    ∀ (args : List TypeArgument) {front : List Token}, In front →
      ∃ inside, In inside ∧ front ++ moreArguments args = inside ++ [.mark '>']
  | [], front, hf => ⟨front, hf, by rw [moreArguments]⟩
  | a :: as, front, hf => by
    obtain ⟨inside, hi, he⟩ := moreArguments_closed hc as (a.tokens_closed hc)
    refine ⟨front ++ .mark ',' :: inside, hc.comma hf hi, ?_⟩
    rw [moreArguments, he]
    simp

end

end

end TestImpact.Java
