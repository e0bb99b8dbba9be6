import TestImpact.Changes.NameStatus
import TestImpact.Changes.Session
import TestImpact.Config.Basic

/-!
# Changes since the base

The changed paths of a project are those of the commits since the base reference and, as configured,
those of the working tree and of the index. A repository without commits has only the latter.
-/

namespace TestImpact.Changes

/-- Refuses a project outside a working tree. -/
def requireWorkTree (project : Path) : Talk Unit := do
  let reply ← ask project ["rev-parse", "--is-inside-work-tree"]
  if reply.succeeded && trim reply.outText = "true" then return ()
  else throw (.notARepository project)

/-- The commit that a revision stands for. -/
def commit? (project : Path) (revision : String) : Talk (Option String) := do
  let reply ← ask project ["rev-parse", "--verify", "--quiet", revision ++ "^\x7bcommit\x7d"]
  let id := trim reply.outText
  return if reply.succeeded && !id.isEmpty then some id else none

/-- The commit of a base reference, taken as it is or else as a remote branch. -/
def resolveBaseRef (project : Path) (ref : String) : Talk String := do
  if let some id ← commit? project ref then return id
  if let some id ← commit? project ("refs/remotes/" ++ ref) then return id
  throw (.unresolvedRef ref)

/-- The paths of a listing of changes. -/
def listed (project : Path) (range : List String) : Talk NameSet := do
  let listing ← askOutput project
    (["diff", "--name-status", "--find-renames", "--relative"] ++ range ++ ["--"])
  return .ofList (changedPaths listing)

/-- The paths that the commits since the base reference have changed. -/
def committed (project : Path) (ref : String) : Talk NameSet := do
  match ← commit? project "HEAD" with
  | none => return .empty
  | some _ =>
    let base ← resolveBaseRef project ref
    listed project [base ++ "..HEAD"]

/-- The changed paths of a project. -/
def detect (project : Path) (config : Config) : Talk NameSet := do
  requireWorkTree project
  let commits ← committed project config.baseRef
  let workTree ← if config.includeUncommitted then listed project [] else pure .empty
  let index ← if config.includeStaged then listed project ["--cached"] else pure .empty
  return (commits.union workTree).union index

/-- The outcome of a conversation in a session, and the session after it. -/
def Talk.outcome {α : Type} (talk : Talk α) (session : Session) : Except ChangeError α × Session :=
  StateT.run (ExceptT.run talk) session

end TestImpact.Changes
