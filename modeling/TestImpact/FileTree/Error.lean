/-!
# Why a file cannot be read
-/

namespace TestImpact

/-- Why a path does not lead to a readable text. -/
inductive FileError
  | notFound
  | notDirectory
  | isDirectory
  | tooManyLinks
  | notUtf8
  /-- The path holds a NUL, which no file name can. -/
  | nulInName
  /-- The path or a name on it is longer than any can be. -/
  | nameTooLong
deriving DecidableEq, Repr

/-- The wording of a file error. -/
def FileError.message : FileError → String
  | notFound => "No such file or directory (os error 2)"
  | notDirectory => "Not a directory (os error 20)"
  | isDirectory => "Is a directory (os error 21)"
  | tooManyLinks => "Too many levels of symbolic links (os error 40)"
  | notUtf8 => "stream did not contain valid UTF-8"
  | nulInName => "file name contained an unexpected NUL byte"
  | nameTooLong => "File name too long (os error 36)"

end TestImpact
