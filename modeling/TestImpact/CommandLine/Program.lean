import TestImpact.CommandLine.Arguments
import TestImpact.Config.Load

/-!
# The program

What the program writes and its exit code, given its arguments, the files, and a conversation with
git. A command line that cannot be read ends with code 2, any other error with code 1.
-/

namespace TestImpact.CommandLine

/-- What a run of the program leaves. -/
structure Outcome where
  code : Nat
  out : String := ""
  err : String := ""
deriving DecidableEq, Repr

/-- An error as the program tells it: its wording, and the wordings of what caused it. -/
inductive Failure
  | because (message : String) (causes : List String)
  /-- A configuration file that is no configuration; the fault itself is not told. -/
  | malformedConfig (message : String)
deriving DecidableEq, Repr

namespace Failure

/-- The failure of a configuration. -/
def ofConfig (e : ConfigError) : Failure :=
  match e with
  | .malformed _ => .malformedConfig e.message
  | e => .because e.message e.causes

/-- The failure to learn the changes. -/
def ofChanges (e : Changes.ChangeError) : Failure :=
  .because (Analysis.failureMessage e) (e.message :: e.causes)

/-- The text with an indent in front of each line but the first. -/
def indented (indent : String) (s : String) : String :=
  ("\n" ++ indent).intercalate (piecesOf '\n' s)

/-- The lines that tell causes. A single one is not numbered. -/
def causeLines : List String → String
  | [] => ""
  | [cause] => "\nCaused by:\n    " ++ indented "    " cause ++ "\n"
  | causes =>
    "\nCaused by:\n" ++ String.join (causes.zipIdx.map fun (cause, n) =>
      "    " ++ decimal n ++ ": " ++ indented "       " cause ++ "\n")

/-- The text that tells a failure. -/
def text : Failure → String
  | because message causes => "Error: " ++ message ++ "\n" ++ causeLines causes
  | malformedConfig message => "Error: " ++ message

end Failure

/-- The configuration with the options of the command line in place of its own. -/
def RunOptions.apply (o : RunOptions) (c : Config) : Config :=
  { c with
    baseRef := o.baseRef.getD c.baseRef
    includeUncommitted := c.includeUncommitted && !o.noUncommitted
    includeStaged := c.includeStaged && !o.noStaged
    runAllIfNoMatches := c.runAllIfNoMatches || o.runAllIfNoMatches
    strategies := if o.strategies.isEmpty then c.strategies else o.strategies
    transitiveDepth := o.depth.getD c.transitiveDepth }

/-- The impact that a run is asked for: of the changes it is given, or else of those that git
knows. -/
def impact (o : RunOptions) (t : FileTree) (session : Changes.Session) : Except Failure Impact := do
  let config ← (Config.load t o.project o.config).mapError Failure.ofConfig
  let analysis ← (Analysis.prepare (o.apply config) o.project).mapError Failure.ofConfig
  if o.changed.isEmpty then (analysis.run t session).mapError Failure.ofChanges
  else return analysis.analyze t (.ofList o.changed)

/-- Analyses and reports. -/
def run (o : RunOptions) (t : FileTree) (session : Changes.Session) : Outcome :=
  match impact o t session with
  | .error e => { code := 1, err := e.text }
  | .ok i =>
    { code := 0
      out := Report.render i o.format
      err := if i.runAll ∧ o.format = .gradle then
          "no affected tests matched: run the full test task\n"
        else "" }

/-- The configuration of a project, if it can be used. -/
def usableConfig (t : FileTree) (project : Path) (explicit : Option Path) :
    Except ConfigError Config := do
  let c ← Config.load t project explicit
  c.check
  return c

/-- Shows the configuration of a project. -/
def showConfig (project : Path) (explicit : Option Path) (t : FileTree) : Outcome :=
  let path := Config.pathFor project explicit
  let head := "Config: " ++ path.text ++ "\n" ++
    (if t.exists? path then "" else "(default config, file not created)\n") ++ "\n"
  match usableConfig t project explicit with
  | .error e => { code := 1, out := head, err := (Failure.ofConfig e).text }
  | .ok c => { code := 0, out := head ++ c.write ++ "\n" }

/-- The text that names the program and its version. -/
def versionText : String := "affected-tests 0.4.0\n"

/-- Runs the program. -/
def execute (args : List String) (t : FileTree) (session : Changes.Session) : Outcome :=
  match read? args with
  | none => { code := 2 }
  | some .version => { code := 0, out := versionText }
  | some (.run o) => run o t session
  | some (.showConfig project explicit) => showConfig project explicit t

end TestImpact.CommandLine
