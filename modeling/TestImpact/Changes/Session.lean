import TestImpact.Path
import TestImpact.Text.Blank
import TestImpact.Text.Utf8

/-!
# A conversation with git

Commands go to git one after another, and each one gets a reply. A session holds the replies that
are still to come and the commands that have been started; a session out of replies stands for a git
that cannot be started.
-/

namespace TestImpact.Changes

/-- What a finished command leaves. -/
structure Reply where
  code : Int := 0
  out : List UInt8 := []
  err : List UInt8 := []
deriving DecidableEq, Repr

namespace Reply

/-- The command has done its work. -/
def succeeded (r : Reply) : Bool := r.code = 0

/-- What the command has written. -/
def outText (r : Reply) : String := Utf8.decodeLossy r.out

/-- What the command has complained about. -/
def errText (r : Reply) : String := Utf8.decodeLossy r.err

end Reply

/-- Why a command does not start. -/
inductive StartError
  | programNotFound
  /-- An argument holds a NUL. -/
  | nulInArgument
  | argumentTooLong
deriving DecidableEq, Repr

/-- The wording of why a command does not start. -/
def StartError.message : StartError → String
  | programNotFound => "No such file or directory (os error 2)"
  | nulInArgument => "nul byte found in provided data"
  | argumentTooLong => "Argument list too long (os error 7)"

/-- Why the changes are not known. -/
inductive ChangeError
  | notStarted (why : StartError)
  | notARepository (project : Path)
  | unresolvedRef (ref : String)
  | failed (arguments : List String) (complaint : String)
deriving DecidableEq, Repr

namespace ChangeError

/-- The wording of an error. -/
def message : ChangeError → String
  | notStarted why => "failed to run git (" ++ why.message ++ "); is git installed and on PATH?"
  | notARepository project =>
    project.text ++ " is not inside a git repository; run the analysis from a checkout"
  | unresolvedRef ref =>
    "base ref '" ++ ref ++ "' could not be resolved; " ++
      "make sure it exists locally (e.g. run 'git fetch origin' in CI)"
  | failed arguments complaint => "git " ++ " ".intercalate arguments ++ " failed: " ++ complaint

/-- The wordings of what caused an error. -/
def causes : ChangeError → List String
  | notStarted why => [why.message]
  | _ => []

end ChangeError

/-- The replies to come and the commands started, in their order. -/
structure Session where
  replies : List Reply
  started : List (List String) := []
deriving DecidableEq, Repr

/-- A conversation with a result. -/
abbrev Talk (α : Type) := ExceptT ChangeError (StateM Session) α

/-- The greatest number of bytes in an argument. -/
def maxArgumentBytes : Nat := 131071

/-- Starts git for a project with the arguments and gives its reply. -/
def ask (project : Path) (arguments : List String) : Talk Reply := do
  let command := ["-c", "core.quotepath=off", "-C", project.text] ++ arguments
  let session ← get
  if command.any ('\x00' ∈ ·.toList) then throw (.notStarted .nulInArgument)
  match session.replies with
  | [] => throw (.notStarted .programNotFound)
  | reply :: rest =>
    if command.any (maxArgumentBytes < ·.utf8ByteSize) then throw (.notStarted .argumentTooLong)
    set { replies := rest, started := session.started ++ [command] : Session }
    return reply

/-- Starts git and gives what it writes; a command that fails is an error. -/
def askOutput (project : Path) (arguments : List String) : Talk String := do
  let reply ← ask project arguments
  if reply.succeeded then return reply.outText
  else throw (.failed arguments (trim reply.errText))

end TestImpact.Changes
