import TestImpact.Config.Basic
import TestImpact.Path
import TestImpact.Report

/-!
# The arguments of the program

A command line names one of two commands and its options. Options have a long name and some a letter
too; letters may stand together behind one dash. A value stands behind `=`, right behind a letter,
or in the next argument, where it cannot start with a dash. Behind `--` there are no options.
-/

namespace TestImpact.CommandLine

/-- The options of the command that analyses. -/
structure RunOptions where
  project : Path := ⟨"."⟩
  config : Option Path := none
  baseRef : Option String := none
  noUncommitted : Bool := false
  noStaged : Bool := false
  runAllIfNoMatches : Bool := false
  strategies : List Strategy := []
  depth : Option Int := none
  changed : List String := []
  format : ReportFormat := .text
deriving DecidableEq, Repr

/-- What the program is asked to do. -/
inductive Command
  | version
  | run (options : RunOptions)
  /-- Shows the configuration of a project. -/
  | showConfig (project : Path) (config : Option Path)
deriving DecidableEq, Repr

/-- The options that a command knows. -/
inductive Opt
  | verbose
  | config
  | baseRef
  | noUncommitted
  | noStaged
  | runAllIfNoMatches
  | strategy
  | depth
  | changed
  | format
deriving DecidableEq, Repr

namespace Opt

/-- The option has a value. -/
def takesValue : Opt → Bool
  | config | baseRef | strategy | depth | changed | format => true
  | _ => false

/-- The option may be given more than once. -/
def repeats : Opt → Bool
  | verbose | strategy | changed => true
  | _ => false

/-- The option of a long name. -/
def ofLong? : String → Option Opt
  | "verbose" => some verbose
  | "config" => some config
  | "base-ref" => some baseRef
  | "no-uncommitted" => some noUncommitted
  | "no-staged" => some noStaged
  | "run-all-if-no-matches" => some runAllIfNoMatches
  | "strategy" => some strategy
  | "depth" => some depth
  | "changed" => some changed
  | "format" => some format
  | _ => none

/-- The option of a letter. -/
def ofLetter? : Char → Option Opt
  | 'v' => some verbose
  | 'c' => some config
  | 's' => some strategy
  | 'd' => some depth
  | 'f' => some format
  | _ => none

/-- The options of the command that analyses. -/
def ofRun (_ : Opt) : Bool := true

/-- The options of the command that shows the configuration. -/
def ofShowConfig (o : Opt) : Bool := o = verbose || o = config

end Opt

/-- One thing that the arguments of a command say. -/
inductive Argument
  | flag (o : Opt)
  | value (o : Opt) (text : String)
  | positional (text : String)
deriving DecidableEq, Repr

/-- An argument that starts with a dash and is more than that. -/
def isDashed (arg : String) : Bool := startsWith "-" arg && arg ≠ "-"

/-- What a cluster of letters says, and the option whose value stands in the next argument. -/
def readLetters (known : Opt → Bool) : List Char → Option (List Argument × Option Opt)
  | [] => some ([], none)
  | c :: r => do
    let o ← (Opt.ofLetter? c).filter known
    if o.takesValue then
      match r with
      | [] => return ([], some o)
      | '=' :: v => return ([.value o (.ofList v)], none)
      | v => return ([.value o (.ofList v)], none)
    else
      let (more, waiting) ← readLetters known r
      return (.flag o :: more, waiting)

/-- What an argument behind two dashes says, and the option whose value stands in the next one. -/
def readLong (known : Opt → Bool) (cs : List Char) : Option (List Argument × Option Opt) := do
  let o ← (Opt.ofLong? (.ofList (cs.takeWhile (· ≠ '=')))).filter known
  match o.takesValue, cs.dropWhile (· ≠ '=') with
  | true, _ :: v => return ([.value o (.ofList v)], none)
  | true, [] => return ([], some o)
  | false, [] => return ([.flag o], none)
  | false, _ :: _ => none

/-- What the arguments of a command say, unless one of them is no option of it or lacks its value.
`waiting` is the option whose value comes next. -/
def readArguments (known : Opt → Bool) (waiting : Option Opt) :
    List String → Option (List Argument)
  | [] => if waiting.isNone then some [] else none
  | arg :: args =>
    match waiting with
    | some o =>
      if isDashed arg then none
      else (readArguments known none args).map (.value o arg :: ·)
    | none =>
      if arg = "--" then some (args.map .positional)
      else if isDashed arg then do
        let (said, waiting) ← match arg.toList with
          | '-' :: '-' :: name => readLong known name
          | cs => readLetters known (cs.drop 1)
        return said ++ (← readArguments known waiting args)
      else (readArguments known none args).map (.positional arg :: ·)

/-- The option that an argument is about. -/
def Argument.opt? : Argument → Option Opt
  | flag o | value o _ => some o
  | positional _ => none

/-- No option comes again that must not, and there is at most one positional argument. -/
def isOrderly (args : List Argument) : Bool :=
  ((args.filterMap Argument.opt?).all fun o =>
    o.repeats || (args.filter (·.opt? = some o)).length ≤ 1) &&
    (args.filter fun a => a.opt?.isNone).length ≤ 1

/-- An integer of 32 bits, with or without a sign. -/
def int32? (s : String) : Option Int := do
  let (negative, digits) := match s.toList with
    | '-' :: r => (true, r)
    | '+' :: r => (false, r)
    | r => (false, r)
  if digits.isEmpty || !digits.all Char.isDigit then none
  let size : Nat := digits.foldl (fun n c => n * 10 + (c.toNat - '0'.toNat)) 0
  let n : Int := if negative then -size else size
  if -0x80000000 ≤ n ∧ n < 0x80000000 then return n else none

/-- A path, which has at least one character. -/
def path? (s : String) : Option Path := if s.isEmpty then none else some ⟨s⟩

/-- The options with one more argument taken into account. -/
def RunOptions.add? (o : RunOptions) : Argument → Option RunOptions
  | .flag .noUncommitted => some { o with noUncommitted := true }
  | .flag .noStaged => some { o with noStaged := true }
  | .flag .runAllIfNoMatches => some { o with runAllIfNoMatches := true }
  | .flag _ => some o
  | .value .config s => (path? s).map fun p => { o with config := some p }
  | .value .baseRef s => some { o with baseRef := some s }
  | .value .strategy s =>
    (Strategy.ofName? s).map fun k => { o with strategies := o.strategies ++ [k] }
  | .value .depth s => (int32? s).map fun n => { o with depth := some n }
  | .value .changed s => some { o with changed := o.changed ++ [s] }
  | .value .format s => (ReportFormat.ofName? s).map fun f => { o with format := f }
  | .value _ _ => some o
  | .positional s => (path? s).map fun p => { o with project := p }

/-- The command `name` with these arguments. -/
def readCommand (name : String) (args : List String) : Option Command := do
  let known ← match name with
    | "run" => some Opt.ofRun
    | "config" => some Opt.ofShowConfig
    | _ => none
  let said ← readArguments known none args
  if isOrderly said then
    let o ← said.foldlM RunOptions.add? {}
    return if name = "run" then .run o else .showConfig o.project o.config
  else none

/-- What the arguments in front of a command ask for: only letters `v`, and the program's
version. -/
inductive Leading
  | more
  | version
  | wrong
deriving DecidableEq, Repr

/-- What a cluster of letters in front of a command asks for. -/
def readLeading : List Char → Leading
  | [] => .more
  | 'v' :: r => readLeading r
  | 'V' :: _ => .version
  | _ => .wrong

/-- What the arguments of the program ask for; nothing if they are wrong. -/
def read? : List String → Option Command
  | [] => none
  | arg :: args =>
    if arg = "--verbose" then read? args
    else if arg = "--version" then some .version
    else if arg = "--" then none
    else if isDashed arg then
      match readLeading (arg.toList.drop 1) with
      | .more => read? args
      | .version => some .version
      | .wrong => none
    else readCommand arg args

end TestImpact.CommandLine
