import PushMachine.Command.Basic
import PushMachine.Log
import PushMachine.Options.Configuration
import PushMachine.Random.Twister
import PushMachine.Text.Control
/-!
# What a command prints

A command is a function of the files it may read: it ends with an exit code and with what it wrote to either stream,
or it is refused for its usage, or a fault of the program it runs ends it.  Log records go to the error stream as they
are; all else is printed without the control sequences that a program text may carry.
-/
namespace PushMachine
namespace Command

structure Result where
  exit   : Nat
  output : String := ""
  errors : String := ""
  deriving DecidableEq, Repr

/-- Why a command gave no result. -/
inductive Failure where
  | usage (e : UsageError)
  | fault (f : Fault)
  deriving DecidableEq, Repr

/-- The content of each file that can be read. -/
abbrev Files := String → Option String

def unlines (lines : List String) : String := String.join (lines.map (· ++ "\n"))

def exitError : Nat := 1

/-- A run that used up its steps has an exit code of its own. -/
def exitCode : Ending → Nat
  | .completed _   => 0
  | .exhausted _ _ => 2
  | .aborted _ _   => exitError

/-- Lines as a command prints them. -/
def printed (lines : List String) : String := Text.plain (unlines lines)

/-- A command that ends with one message. -/
def failed (logged message : String) : Result := ⟨exitError, "", logged ++ printed ["Error: " ++ message]⟩

/-! ## Logging -/

/-- The least level shown for a logger; tracing lets through what the trace reports. -/
def threshold (verbose trace : Bool) : Log.Logger → Log.Level
  | .trace => if trace then .info else if verbose then .debug else .warning
  | _      => if verbose then .debug else .warning

def shownLog (i : Invocation) (trace : Bool) (records : List Log.Record) : String :=
  unlines ((records.filter fun r => (threshold i.verbose trace r.logger).rank ≤ r.level.rank).map fun r =>
    if i.labelled then r.line else r.message)

/-! ## Running -/

def programText (content : String) : String := String.ofList (Text.unifyNewlines content.toList)

/-- The options of a run: those of the configuration, with the seed and tracing asked for. -/
def RunRequest.override (r : RunRequest) (o : Options) : Options :=
  let o := match r.seed with
    | some n => { o with seed := n }
    | none   => o
  if r.trace then { o with tracing := true } else o

def runJson (o : Options) (e : Ending) (m : Machine Twister) : Json :=
  .object [("status", .string e.status), ("success", .boolean e.isSuccess), ("steps", .integer e.steps),
    ("error", (e.message?.map Json.string).getD .null), ("stacks", m.stacksJson o), ("definitions", m.bindingsJson)]

def runLines (o : Options) (e : Ending) (m : Machine Twister) : List String :=
  ("Status: " ++ e.status ++ " (" ++ e.steps.repr ++ " steps)") ::
    e.message?.toList.map ("  " ++ ·) ++ (m.stackLines o).map ("  " ++ ·)

/-- Run a program text on a fresh machine. -/
def runProgram (i : Invocation) (r : RunRequest) (read : List Log.Record) (o : Options) (text : String) :
    Except Failure Result :=
  let shown := shownLog i r.trace
  let before := read ++ Log.ofBuilding o
  match Tree.parse text with
  | .error e => .ok (failed (shown before) e.message)
  | .ok t    =>
    let m := Machine.initial (Twister.ofSeed o.seed)
    let result := m.runTree o t
    match result.1 with
    | .error f => .error (.fault f)
    | .ok e    => .ok {
        exit   := exitCode e
        output := printed (if r.json then [(runJson o e result.2).text] else runLines o e result.2)
        errors := shown (before ++ Log.ofRun o m t result) }

def executeRun (files : Files) (i : Invocation) (r : RunRequest) : Except Failure Result :=
  let start (text : String) : Except Failure Result :=
    match r.config with
    | none      => runProgram i r [] (r.override {}) text
    | some path =>
      match Options.ofFile ((files path).getD "") with
      | .error e => .ok (failed "" ("invalid configuration: " ++ e.message))
      | .ok o    => runProgram i r (Log.ofReading o) (r.override o) text
  match r.program, r.source with
  | some path, none      => start (programText ((files path).getD ""))
  | none,      some text => start text
  | _,         _         => .ok (failed "" "give exactly one of PROGRAM or --eval")

/-! ## Showing files -/

def topLevelItems : Tree → Nat
  | .atom _  => 1
  | .list ts => ts.length

def executeParse (content : String) (json : Bool) : Result :=
  match Tree.parse (programText content) with
  | .error e => failed "" e.message
  | .ok t    =>
    if json then
      ⟨0, printed [(Json.object [("program", .string t.text), ("points", .integer t.points),
        ("top_level_items", .integer (topLevelItems t))]).text], ""⟩
    else ⟨0, printed [t.text, "  Points: " ++ t.points.repr], ""⟩

def executeCheck (i : Invocation) (content : String) (json : Bool) : Result :=
  match Options.ofFile content with
  | .error e =>
    failed "" (e.message ++ (match e.line? with
      | some n => " (line " ++ n.repr ++ ")"
      | none   => ""))
  | .ok o    =>
    ⟨0, printed (if json then [o.json.text] else "✓ Configuration valid" :: o.plainLines),
      shownLog i false (Log.ofReading o)⟩

/-- **What an invocation does.**  Every file it names has to be there. -/
def execute (files : Files) (i : Invocation) : Except Failure Result :=
  match i.request.paths.find? fun path => (files path).isNone with
  | some path => .error (.usage (.noSuchFile path))
  | none      =>
    match i.request with
    | .run r         => executeRun files i r
    | .parse r       => .ok (executeParse ((files r.path).getD "") r.json)
    | .checkConfig r => .ok (executeCheck i ((files r.path).getD "") r.json)

end Command
end PushMachine
