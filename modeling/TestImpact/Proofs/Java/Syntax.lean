import TestImpact.Proofs.Java.Header
import TestImpact.Proofs.Java.Nesting
import TestImpact.Proofs.Java.TokenText

/-!
# Compilation units

The sources that declare something, as trees: a compilation unit has a package, imports and types;
a type has members, some of which are types again. `CompilationUnit.tokens` writes a unit, and
`CompilationUnit.print` is its text. The parts that are not read any further, such as the values of
fields and the bodies of methods, are lists of tokens that carry what is asked of them: brackets
that are closed, and no semicolon where it would end the member.
-/

namespace TestImpact.Java

/-! ## Tokens that are not read -/

/-- Tokens with closed brackets, of which those outside of all brackets satisfy `p`. -/
structure Nested (p : Token → Prop) where
  tokens : List Token
  nested : WellNested p tokens
  lexemes : ∀ t ∈ tokens, t.isLexeme = true

/-- What stands between the parentheses of an annotation. -/
abbrev Arguments := Nested fun _ => True

/-- The value of a field or the constants of an enum: no semicolon stands outside of brackets. -/
abbrev Value := Nested (· ≠ .mark ';')

/-- What stands between the braces of a method or of an initializer. -/
structure Block where
  tokens : List Token
  closed : (pairCount '{' '}').depth 0 tokens = some 0
  lexemes : ∀ t ∈ tokens, t.isLexeme = true

/-- The block between its braces. -/
def Block.braced (b : Block) : List Token := .mark '{' :: (b.tokens ++ [.mark '}'])

/-! ## Parts of declarations -/

/-- Lists of tokens with commas between them. -/
def separated : List (List Token) → List Token
  | [] => []
  | ts :: parts => ts ++ parts.flatMap (.mark ',' :: ·)

/-- An annotation or a word in front of a declaration. -/
inductive ModifierSyntax
  | word (w : String) (h : isModifier w = true)
  | nonSealed
  | annotation (name : DottedName) (arguments : Option Arguments)

/-- The modifier as it is written. -/
def ModifierSyntax.tokens : ModifierSyntax → List Token
  | word w _ => [.word w]
  | nonSealed => [.word "non", .mark '-', .word "sealed"]
  | annotation name none => .mark '@' :: name.tokens
  | annotation name (some args) =>
    .mark '@' :: (name.tokens ++ .mark '(' :: (args.tokens ++ [.mark ')']))

/-- The modifiers one after another. -/
def modifierTokens (ms : List ModifierSyntax) : List Token := ms.flatMap ModifierSyntax.tokens

/-- A type parameter and the types that bound it. -/
structure TypeParameter where
  name : Identifier
  bounds : List TypeExpr

/-- The bounds of a type parameter as they are written. -/
def boundTokens : List TypeExpr → List Token
  | [] => []
  | t :: ts => .word "extends" :: (t.tokens ++ ts.flatMap fun u => .mark '&' :: u.tokens)

/-- The type parameter as it is written. -/
def TypeParameter.tokens (p : TypeParameter) : List Token :=
  .word p.name.text :: boundTokens p.bounds

/-- A list of type parameters between angle brackets, nothing for no parameters. -/
def typeParameterTokens (ps : List TypeParameter) : List Token :=
  if ps.isEmpty then []
  else .mark '<' :: (separated (ps.map TypeParameter.tokens) ++ [.mark '>'])

/-- A parameter of a method, or a component of a record. -/
structure Parameter where
  modifiers : List ModifierSyntax
  type : TypeExpr
  varargs : Bool
  name : Identifier

/-- The parameter as it is written. -/
def Parameter.tokens (p : Parameter) : List Token :=
  modifierTokens p.modifiers ++
    (p.type.tokens ++ ((if p.varargs then [.ellipsis] else []) ++ [.word p.name.text]))

/-- The parameters between parentheses. -/
def parameterTokens (ps : List Parameter) : List Token :=
  .mark '(' :: (separated (ps.map Parameter.tokens) ++ [.mark ')'])

/-- The word that a list of types in a declaration's header starts with. -/
inductive ClauseKind
  | extending
  | implementing
  | permitting
deriving DecidableEq

/-- The word of a clause. -/
def ClauseKind.word : ClauseKind → String
  | extending => "extends"
  | implementing => "implements"
  | permitting => "permits"

/-- A list of types in a declaration's header. -/
structure Clause where
  kind : ClauseKind
  types : List TypeExpr

/-- The clause as it is written. -/
def Clause.tokens (c : Clause) : List Token :=
  .word c.kind.word :: separated (c.types.map TypeExpr.tokens)

/-- What only a certain kind of type has in front of its members. -/
inductive KindSyntax
  | classType
  | interfaceType
  /-- The constants of an enum; `closed` says that a semicolon follows them even if no member
  does. -/
  | enumType (constants : Value) (closed : Bool)
  | recordType (components : List Parameter)
  | annotationType

namespace KindSyntax

/-- The kind without what belongs to it. -/
def kind : KindSyntax → DeclKind
  | classType => .classType
  | interfaceType => .interfaceType
  | enumType .. => .enumType
  | recordType _ => .recordType
  | annotationType => .annotationType

/-- The words in front of the declared name. -/
def words : KindSyntax → List Token
  | classType => [.word "class"]
  | interfaceType => [.word "interface"]
  | enumType .. => [.word "enum"]
  | recordType _ => [.word "record"]
  | annotationType => [.mark '@', .word "interface"]

/-- The components of a record. -/
def components : KindSyntax → List Parameter
  | recordType components => components
  | _ => []

/-- The components between parentheses, behind the type parameters of a record. -/
def componentTokens : KindSyntax → List Token
  | recordType components => parameterTokens components
  | _ => []

/-- What stands between the opening brace and the members, the tokens of which are given. -/
def constantTokens (members : List Token) : KindSyntax → List Token
  | enumType constants closed =>
    constants.tokens ++ if closed || !members.isEmpty then [.mark ';'] else []
  | _ => []

end KindSyntax

/-- The header of a type. -/
structure TypeHead where
  modifiers : List ModifierSyntax
  kind : KindSyntax
  name : Identifier
  typeParameters : List TypeParameter
  clauses : List Clause

/-- The header behind the declared name. -/
def TypeHead.afterName (h : TypeHead) : List Token :=
  typeParameterTokens h.typeParameters ++
    (h.kind.componentTokens ++ h.clauses.flatMap Clause.tokens)

/-- The header as it is written. -/
def TypeHead.tokens (h : TypeHead) : List Token :=
  modifierTokens h.modifiers ++ (h.kind.words ++ .word h.name.text :: h.afterName)

/-- What a method returns; a constructor returns nothing at all. -/
inductive ResultSyntax
  | constructor
  | void
  | type (t : TypeExpr)

/-- The result as it is written. -/
def ResultSyntax.tokens : ResultSyntax → List Token
  | constructor => []
  | void => [.word "void"]
  | type t => t.tokens

/-- The header of a method or a constructor. -/
structure MethodHead where
  modifiers : List ModifierSyntax
  typeParameters : List TypeParameter
  result : ResultSyntax
  name : Identifier
  parameters : List Parameter
  throws : List TypeExpr

/-- A list of exceptions, nothing for no exceptions. -/
def throwsTokens (ts : List TypeExpr) : List Token :=
  if ts.isEmpty then [] else .word "throws" :: separated (ts.map TypeExpr.tokens)

/-- The header behind its modifiers. -/
def MethodHead.afterModifiers (h : MethodHead) : List Token :=
  typeParameterTokens h.typeParameters ++ (h.result.tokens ++
    .word h.name.text :: (parameterTokens h.parameters ++ throwsTokens h.throws))

/-- The header as it is written. -/
def MethodHead.tokens (h : MethodHead) : List Token :=
  modifierTokens h.modifiers ++ h.afterModifiers

/-- The equals sign and the value of a field, nothing without a value. -/
def valueTokens : Option Value → List Token
  | none => []
  | some v => .mark '=' :: v.tokens

/-- The body of a method, or a semicolon in its place. -/
def bodyTokens : Option Block → List Token
  | none => [.mark ';']
  | some b => b.braced

/-! ## Declarations -/

mutual

/-- A type and its members. -/
inductive TypeSyntax
  | mk (head : TypeHead) (members : List MemberSyntax)

/-- A member of a type. -/
inductive MemberSyntax
  | field (modifiers : List ModifierSyntax) (type : TypeExpr) (name : Identifier)
    (value : Option Value)
  | method (head : MethodHead) (body : Option Block)
  | initializer (modifiers : List ModifierSyntax) (body : Block)
  | type (t : TypeSyntax)

end

mutual

/-- The type as it is written. -/
def TypeSyntax.tokens : TypeSyntax → List Token
  | .mk head ms =>
    head.tokens ++ .mark '{' ::
      (head.kind.constantTokens (membersTokens ms) ++ (membersTokens ms ++ [.mark '}']))

/-- The member as it is written. -/
def MemberSyntax.tokens : MemberSyntax → List Token
  | .field mods type name value =>
    modifierTokens mods ++ (type.tokens ++ .word name.text :: (valueTokens value ++ [.mark ';']))
  | .method head body => head.tokens ++ bodyTokens body
  | .initializer mods body => modifierTokens mods ++ body.braced
  | .type t => t.tokens

/-- The members one after another. -/
def membersTokens : List MemberSyntax → List Token
  | [] => []
  | m :: ms => m.tokens ++ membersTokens ms

end

/-- An import statement. -/
inductive ImportSyntax
  | single (name : DottedName)
  | onDemand (package : DottedName)
  | staticSingle (owner : DottedName) (member : Identifier)
  | staticOnDemand (owner : DottedName)

namespace ImportSyntax

/-- The import is static. -/
def isStatic : ImportSyntax → Bool
  | staticSingle .. | staticOnDemand _ => true
  | _ => false

/-- What stands between the words of the import and its semicolon. -/
def nameTokens : ImportSyntax → List Token
  | single name => name.tokens
  | onDemand package => package.tokens ++ [.mark '.', .mark '*']
  | staticSingle owner member => owner.tokens ++ [.mark '.', .word member.text]
  | staticOnDemand owner => owner.tokens ++ [.mark '.', .mark '*']

/-- The class that is imported by its name; of a static import its owner. -/
def class? : ImportSyntax → Option String
  | single name => some name.text
  | onDemand _ => none
  | staticSingle owner _ => some owner.text
  | staticOnDemand owner => some owner.text

/-- What is imported on demand. -/
def onDemand? : ImportSyntax → Option String
  | onDemand package => some package.text
  | staticOnDemand owner => some owner.text
  | _ => none

end ImportSyntax

/-- The package statement as it is written, nothing for the default package. -/
def packageTokens : Option DottedName → List Token
  | none => []
  | some name => .word "package" :: (name.tokens ++ [.mark ';'])

/-- A source: its package, its imports, which are of different simple names, and its types. -/
structure CompilationUnit where
  package : Option DottedName
  imports : List ImportSyntax
  distinct : ((imports.filterMap ImportSyntax.class?).map simpleName).Nodup
  types : List TypeSyntax

namespace ImportSyntax

/-- The import as it is written. -/
def tokens (i : ImportSyntax) : List Token :=
  importWords i.isStatic ++ (i.nameTokens ++ [.mark ';'])

end ImportSyntax

namespace CompilationUnit

/-- The unit as it is written. -/
def tokens (u : CompilationUnit) : List Token :=
  packageTokens u.package ++
    (u.imports.flatMap ImportSyntax.tokens ++ u.types.flatMap TypeSyntax.tokens)

/-- The text of the unit. -/
def print (u : CompilationUnit) : String := .ofList (spell u.tokens)

end CompilationUnit

/-! ## What a unit declares -/

/-- The supertypes that a clause lists; the types that may extend a sealed type are none. -/
def Clause.supertypes (c : Clause) : List String :=
  if c.kind = .permitting then [] else c.types.map TypeExpr.raw

/-- The supertypes that a header lists. -/
def TypeHead.supertypes (h : TypeHead) : List String := h.clauses.flatMap Clause.supertypes

/-- The declaration of the type inside `outer`, with the given supertypes. -/
def TypeHead.declaration (h : TypeHead) (outer : String) (supertypes : List String) : TypeDecl where
  name := h.name.text
  qualified := qualify outer h.name.text
  kind := h.kind.kind
  supertypes := supertypes

/-- The raw type that a method returns. -/
def ResultSyntax.raw? : ResultSyntax → Option String
  | type t => some t.raw
  | _ => none

/-- The raw types of parameters. -/
def rawTypes (ps : List Parameter) : List String := ps.map fun p => p.type.raw

/-- What a source declares: a type inside `outer`, a field, or a method. -/
inductive Declared
  | type (outer : String) (head : TypeHead)
  | field (type : TypeExpr)
  | method (head : MethodHead)

namespace Declared

/-- The header of a declared type, with the qualified name of the type around it. -/
def head? : Declared → Option (String × TypeHead)
  | type outer head => some (outer, head)
  | _ => none

/-- The components of a record. -/
def components : Declared → List Parameter
  | type _ head => head.kind.components
  | _ => []

/-- The parameters of a method or of a record's constructor. -/
def parameters : Declared → List Parameter
  | type _ head => head.kind.components
  | field _ => []
  | method head => head.parameters

/-- The member that is declared. `supertypes` and `parameters` say what is known of a header and of
a parameter list. -/
def member (supertypes : TypeHead → List String) (parameters : List Parameter → List String) :
    Declared → Member
  | type outer head =>
    .type (head.declaration outer (supertypes head)) (parameters head.kind.components)
  | field t => .field t.raw
  | method head => .method head.result.raw? (parameters head.parameters)

end Declared

mutual

/-- What a type declares, itself before what is inside it, in the order of the text. -/
def TypeSyntax.declared (outer : String) : TypeSyntax → List Declared
  | .mk head ms => .type outer head :: membersDeclared (qualify outer head.name.text) ms

/-- What a member declares. -/
def MemberSyntax.declared (outer : String) : MemberSyntax → List Declared
  | .field _ type _ _ => [.field type]
  | .method head _ => [.method head]
  | .initializer .. => []
  | .type t => t.declared outer

/-- What members declare. -/
def membersDeclared (outer : String) : List MemberSyntax → List Declared
  | [] => []
  | m :: ms => m.declared outer ++ membersDeclared outer ms

end

namespace CompilationUnit

/-- The text of the package, empty for the default package. -/
def packageName (u : CompilationUnit) : String := (u.package.map DottedName.text).getD ""

/-- What the unit declares, in the order of its text. -/
def declared (u : CompilationUnit) : List Declared := u.types.flatMap (TypeSyntax.declared "")

/-- The headers of all types, each before those inside it. -/
def heads (u : CompilationUnit) : List (String × TypeHead) := u.declared.filterMap Declared.head?

/-- The declared types, each before those inside it. -/
def declarations (u : CompilationUnit) : List TypeDecl :=
  u.heads.map fun h => h.2.declaration h.1 h.2.supertypes

/-- The members with all that is written in them. -/
def members (u : CompilationUnit) : List Member :=
  u.declared.map (Declared.member TypeHead.supertypes rawTypes)

end CompilationUnit

end TestImpact.Java
