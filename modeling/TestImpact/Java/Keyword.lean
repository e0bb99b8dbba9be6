/-!
# Words of the Java language

The words that are no names of types: keywords, the primitive types among them, and the words that
may stand in front of a declaration.
-/

namespace TestImpact.Java

/-- The words that never name a type. -/
def keywords : List String :=
  ["abstract", "assert", "boolean", "break", "byte", "case", "catch", "char", "class", "const",
    "continue", "default", "do", "double", "else", "enum", "extends", "final", "finally", "float",
    "for", "goto", "if", "implements", "import", "instanceof", "int", "interface", "long", "native",
    "new", "package", "private", "protected", "public", "return", "short", "static", "strictfp",
    "super", "switch", "synchronized", "this", "throw", "throws", "transient", "try", "void",
    "volatile", "while", "true", "false", "null", "permits", "sealed", "yield", "record"]

/-- The words for types that are no classes. -/
def primitives : List String :=
  ["boolean", "byte", "char", "double", "float", "int", "long", "short", "void"]

/-- The words that may stand in front of a declaration. -/
def modifiers : List String :=
  ["public", "protected", "private", "static", "final", "abstract", "transient", "volatile",
    "synchronized", "native", "strictfp", "default", "sealed"]

/-- A word that never names a type. -/
def isKeyword (w : String) : Bool := keywords.contains w

/-- A word for a type that is no class. -/
def isPrimitive (w : String) : Bool := primitives.contains w

/-- A word that may stand in front of a declaration. -/
def isModifier (w : String) : Bool := modifiers.contains w

/-- A keyword that cannot stand for a type either. -/
def isReserved (w : String) : Bool := isKeyword w && !isPrimitive w

/-- A primitive type is a keyword. -/
theorem isKeyword_of_isPrimitive {w : String} (h : isPrimitive w = true) : isKeyword w = true := by
  have hs : ∀ v ∈ primitives, v ∈ keywords := by decide
  exact List.contains_iff_mem.2 (hs w (List.contains_iff_mem.1 h))

end TestImpact.Java
