import PushMachine.Command.Arguments
import PushMachine.Number.Decimal
/-!
# Commands

Three commands: run a program and show the stacks, parse a program and show its canonical form, and check a
configuration.  Before the command may stand the option that asks for detailed logging.
-/
namespace PushMachine
namespace Command

/-- The request to run a program, from a file or from the command line itself. -/
structure RunRequest where
  program : Option String := none
  source  : Option String := none
  config  : Option String := none
  seed    : Option Int := none
  trace   : Bool := false
  json    : Bool := false
  deriving DecidableEq, Repr

/-- The request to show what a file holds. -/
structure FileRequest where
  path : String
  json : Bool := false
  deriving DecidableEq, Repr

inductive Request where
  | run (r : RunRequest)
  | parse (r : FileRequest)
  | checkConfig (r : FileRequest)
  deriving DecidableEq, Repr

/-- A command and how it was called. -/
structure Invocation where
  request : Request
  /-- Log records are shown with their level and origin. -/
  labelled : Bool := true
  /-- Log records of every level are shown. -/
  verbose : Bool := false
  deriving DecidableEq, Repr

/-! ## Options of the commands -/

inductive RunOption where
  | source (text : String)
  | config (path : String)
  | seed (text : String)
  | trace
  | json

def runSwitches : List (Switch RunOption) :=
  [⟨"--eval", some 'e', .value .source⟩, ⟨"--config", some 'c', .value .config⟩, ⟨"--seed", some 's', .value .seed⟩,
    ⟨"--trace", none, .flag .trace⟩, ⟨"--json-output", some 'j', .flag .json⟩]

/-- The commands that show a file have one option. -/
def fileSwitches : List (Switch Unit) := [⟨"--json-output", some 'j', .flag ()⟩]

def groupSwitches : List (Switch Unit) := [⟨"--verbose", some 'v', .flag ()⟩]

/-- Later options replace earlier ones; the seed is read apart, once it is known which one counts. -/
def RunRequest.add (r : RunRequest) : RunOption → RunRequest
  | .source text => { r with source := some text }
  | .config path => { r with config := some path }
  | .trace       => { r with trace := true }
  | .json        => { r with json := true }
  | .seed _      => r

def RunOption.seed? : RunOption → Option String
  | .seed text => some text
  | _          => none

/-- Only the last seed has to be a number: those before it are replaced unread. -/
def readSeed (options : List RunOption) : Except UsageError (Option Int) :=
  match (options.filterMap RunOption.seed?).getLast? with
  | none      => .ok none
  | some text =>
    match Number.settingInteger? text.toList with
    | some n => .ok (some n)
    | none   => .error (.notInteger text)

def readRun (args : List String) : Except UsageError RunRequest := do
  let (options, others) ← readArguments runSwitches true args
  let seed ← readSeed options
  match others with
  | []          => .ok (options.foldl RunRequest.add { seed := seed })
  | [path]      => .ok (options.foldl RunRequest.add { program := some path, seed := seed })
  | _ :: a :: _ => .error (.unexpectedArgument a)

def readFile (args : List String) : Except UsageError FileRequest := do
  let (options, others) ← readArguments fileSwitches true args
  match others with
  | []          => .error .missingArgument
  | [path]      => .ok { path := path, json := !options.isEmpty }
  | _ :: a :: _ => .error (.unexpectedArgument a)

def readRequest (name : String) (args : List String) : Except UsageError Request :=
  match name with
  | "run"          => (readRun args).map .run
  | "parse"        => (readFile args).map .parse
  | "check-config" => (readFile args).map .checkConfig
  | _              => .error (.unknownCommand name)

/-- **The invocation that arguments ask for**: options of the program, a command, and the command's own arguments. -/
def Invocation.ofArguments (args : List String) : Except UsageError Invocation := do
  let (options, others) ← readArguments groupSwitches false args
  match others with
  | []           => .error .missingCommand
  | name :: rest => return { request := ← readRequest name rest, verbose := !options.isEmpty }

/-- The invocation of the run command by itself, whose log records are shown bare. -/
def Invocation.ofRunArguments (args : List String) : Except UsageError Invocation := do
  return { request := .run (← readRun args), labelled := false }

/-- The files that an invocation names. -/
def Request.paths : Request → List String
  | .run r         => r.program.toList ++ r.config.toList
  | .parse r       => [r.path]
  | .checkConfig r => [r.path]

end Command
end PushMachine
