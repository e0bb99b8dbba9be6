import TestImpact.Java.ClassFile
import TestImpact.Java.Import
import TestImpact.Java.Lexer
import TestImpact.Java.Member
import TestImpact.Java.TypeReference
import TestImpact.Ordered.NameMap

/-!
# The record of a source file

`ClassRecord.read` reads a Java source into the facts that the selection of tests needs: the
package, the imports, the declared types, the raw types of fields, parameters and results, and the
simple names in type position. Nothing is resolved here.
-/

namespace TestImpact.Java

/-- What is known of one source file. -/
structure ClassRecord where
  /-- The qualified name that the file's place gives its class. -/
  fqn : String
  path : Path
  kind : SourceKind
  /-- The package that the source states. -/
  package : String
  /-- The imported classes by their simple names. -/
  imports : NameMap String
  /-- The packages and classes that are imported on demand. -/
  wildcardImports : NameSet
  declarations : List TypeDecl
  fieldTypes : List String
  parameterTypes : List String
  returnTypes : List String
  /-- The simple names in type position anywhere in the source. -/
  typeRefs : NameSet
deriving Repr

/-- A source that cannot be read. -/
structure ParseError where
  path : Path
  reason : Malformed
deriving DecidableEq, Repr

/-- The wording of a parse error. -/
def ParseError.message (e : ParseError) : String := e.path.text ++ ": " ++ e.reason.message

namespace ClassRecord

/-- The simple name of the file's class. -/
def simpleName (r : ClassRecord) : String := TestImpact.simpleName r.fqn

/-- The source imports the class `fqn` by its name. -/
def importsClass (r : ClassRecord) (fqn : String) : Bool := r.imports.values.contains fqn

/-- The simple name stands in type position somewhere in the source. -/
def refersTo (r : ClassRecord) (name : String) : Bool := name ∈ r.typeRefs

/-- The qualified name of a type that the source declares. -/
def declaredName (r : ClassRecord) (d : TypeDecl) : String := qualify r.package d.qualified

end ClassRecord

/-- The classes of import statements by their simple names; the last one of a simple name counts. -/
def importTable (imports : List Import) : NameMap String :=
  .ofList ((imports.filterMap Import.class?).map fun c => (simpleName c, c))

/-- The simple names that a raw type mentions: its own, those of the types around it, and those in
its arguments. -/
def mentionedBy (raw : String) : List String :=
  let head := typeHead raw
  (simpleName head :: (piecesOf '.' head).filter isCapitalized).filter
    (fun n => !n.isEmpty && !isKeyword n) ++ typeArguments raw

/-- The raw types that the members declare something with. -/
def declaredTypes (ms : List Member) : List String :=
  ms.flatMap Member.fieldTypes ++ ms.flatMap Member.parameterTypes ++
    ms.flatMap Member.returnTypes ++ (ms.filterMap Member.decl?).flatMap TypeDecl.supertypes

/-- The parts of a source: its header, the tokens behind it, and its members. -/
def readParts (text : String) : Except Malformed (Header × List Token × List Member) := do
  let (head, body) ← header (← tokens text.toList)
  return (head, body, ← members body)

/-- The record of a source text that stands at `path` and is known as the class `fqn`. -/
def ClassRecord.read (text : String) (path : Path) (fqn : String) (kind : SourceKind) :
    Except ParseError ClassRecord :=
  match readParts text with
  | .error reason => .error { path, reason }
  | .ok (head, body, ms) =>
    .ok
      { fqn, path, kind
        package := head.package
        imports := importTable head.imports
        wildcardImports := .ofList (head.imports.filterMap Import.onDemand?)
        declarations := ms.filterMap Member.decl?
        fieldTypes := ms.flatMap Member.fieldTypes
        parameterTypes := ms.flatMap Member.parameterTypes
        returnTypes := ms.flatMap Member.returnTypes
        typeRefs := .ofList (references body ++ (declaredTypes ms).flatMap mentionedBy) }

end TestImpact.Java
