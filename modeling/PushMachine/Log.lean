import PushMachine.Machine.Run
import PushMachine.Machine.View
/-!
# Log records

What building and running a machine reports besides its result.  The records of a run are read off from the machines
it went through, so running itself stays free of them.
-/
namespace PushMachine
namespace Log

inductive Level where
  | debug
  | info
  | warning
  deriving DecidableEq, Repr

def Level.label : Level → String
  | .debug   => "DEBUG"
  | .info    => "INFO"
  | .warning => "WARNING"

def Level.rank : Level → Nat
  | .debug   => 0
  | .info    => 1
  | .warning => 2

/-- Who reports. -/
inductive Logger where
  | machine
  | trace
  | options
  deriving DecidableEq, Repr

def Logger.label : Logger → String
  | .machine => "pypush.runtime.interpreter"
  | .trace   => "pypush.trace"
  | .options => "pypush.options"

structure Record where
  level   : Level
  logger  : Logger
  message : String
  deriving DecidableEq, Repr

/-- A record with its level and its origin. -/
def Record.line (r : Record) : String := r.level.label ++ " " ++ r.logger.label ++ ": " ++ r.message

/-- Instructions that are allowed and do not exist are reported when a machine is built. -/
def ofBuilding (o : Options) : List Record :=
  o.missingInstructions.map fun token => ⟨.warning, .machine, "Allowed instruction " ++ token ++ " does not exist"⟩

def ofReading (o : Options) : List Record := [⟨.debug, .options, "Read options: " ++ o.logged⟩]

variable {ρ : Type} [RandomSource ρ]

/-- The records after one step: its number and every stack. -/
def ofStep (o : Options) (m : Machine ρ) : List Record :=
  (("Step " ++ m.steps.repr) :: m.stackLines o).map fun line => ⟨.info, .trace, line⟩

/-- How a run ended early. -/
def ofEnding : Except Fault Ending → List Record
  | .ok (.aborted a steps)       =>
    [⟨.warning, .machine, "Run aborted at step " ++ steps.repr ++ ": " ++ a.message⟩]
  | .ok (.exhausted limit steps) => [⟨.info, .machine, ((Ending.exhausted limit steps).message?).getD ""⟩]
  | _                            => []

/-- The records of `Machine.runCode`, given its result. -/
def ofRunCode (o : Options) (m : Machine ρ) (t : Tree) (result : Except Fault Ending × Machine ρ) : List Record :=
  let steps := if o.tracing then Machine.visited o (m.budget o) { m with exec := t :: m.exec } else []
  steps.flatMap (ofStep o) ++ ofEnding result.1

/-- The records of `Machine.runTree`, given its result. -/
def ofRun (o : Options) (m : Machine ρ) (t : Tree) (result : Except Fault Ending × Machine ρ) : List Record :=
  ⟨.debug, .machine, "Running program: " ++ t.text⟩ :: ofRunCode o (m.start o t) t result ++
    match result.1 with
    | .ok e    => [⟨.debug, .machine, "Run finished: " ++ e.status ++ " after " ++ e.steps.repr ++ " steps"⟩]
    | .error _ => []

end Log
end PushMachine
