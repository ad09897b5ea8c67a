import PushMachine.Machine.Execute
import PushMachine.Tree.Parse
/-!
# Running a program

A program is pushed onto EXEC, and the top item of EXEC is popped and executed until EXEC is empty, a reference
aborts, a fault arises, or the steps allowed are used up.  Using up the last step counts as running out, even if EXEC
is empty then.
-/
namespace PushMachine

/-- How a run ended, and after how many steps. -/
inductive Ending where
  | completed (steps : Nat)
  | exhausted (limit : Int) (steps : Nat)
  | aborted (cause : Abort) (steps : Nat)
  deriving DecidableEq, Repr

namespace Ending

def steps : Ending → Nat
  | .completed steps   => steps
  | .exhausted _ steps => steps
  | .aborted _ steps   => steps

def status : Ending → String
  | .completed _                        => "completed"
  | .exhausted _ _                      => "resource_exhausted"
  | .aborted (.unknownStack _ _) _      => "unknown_stack"
  | .aborted (.unknownInstruction ..) _ => "unknown_instruction"

def isSuccess : Ending → Bool
  | .completed _ => true
  | _            => false

/-- What ended the run early. -/
def message? : Ending → Option String
  | .completed _           => none
  | .exhausted limit steps =>
    some ("the EvalPushLimit was exceeded (" ++ steps.repr ++ " of " ++ limit.repr ++ " steps)")
  | .aborted a _           => some a.message

end Ending

namespace Machine

variable {ρ : Type} [RandomSource ρ]

/-- **One step**: pop the top item of EXEC, count it, and execute it. -/
def step (o : Options) (m : Machine ρ) : Option (Outcome Stop ρ) :=
  match m.exec with
  | []        => none
  | t :: rest => some ({ m with exec := rest, steps := m.steps + 1 }.execute o t)

/-- Steps while EXEC is not empty, at most `budget` of them. -/
def loop (o : Options) : Nat → Machine ρ → Except Fault Ending × Machine ρ
  | 0,          m => (.ok (.exhausted o.stepLimit m.steps), m)
  | budget + 1, m =>
    match m.step o with
    | none                        => (.ok (.completed m.steps), m)
    | some (.next m')             => loop o budget m'
    | some (.stop (.abort a) m')  => (.ok (.aborted a m'.steps), m')
    | some (.stop (.fault f) m')  => (.error f, m')

/-- The steps that are left to a machine. -/
def budget (o : Options) (m : Machine ρ) : Nat := (o.stepLimit - m.steps).toNat

/-- **Push a tree onto EXEC and run.** -/
def runCode (o : Options) (m : Machine ρ) (t : Tree) : Except Fault Ending × Machine ρ :=
  loop o (m.budget o) { m with exec := t :: m.exec }

/-- The machine at the start of a run of a program. -/
def start (o : Options) (m : Machine ρ) (t : Tree) : Machine ρ :=
  let m := m.reset
  if o.pushProgram && o.enables .code then { m with code := t :: m.code } else m

/-- The machine after a run of a program. -/
def finish (o : Options) (m : Machine ρ) : Machine ρ :=
  if o.popProgram && o.enables .code then { m with code := m.code.tail } else m

/-- **Run a program** from a fresh count of steps.  After a fault the machine is left as it is. -/
def runTree (o : Options) (m : Machine ρ) (t : Tree) : Except Fault Ending × Machine ρ :=
  match (m.start o t).runCode o t with
  | (.ok e, m)    => (.ok e, m.finish o)
  | (.error f, m) => (.error f, m)

/-- Run a program text; one that is not balanced runs nothing and leaves the machine as it is. -/
def run (o : Options) (m : Machine ρ) (text : String) : Except ParseError (Except Fault Ending) × Machine ρ :=
  match Tree.parse text with
  | .error e => (.error e, m)
  | .ok t    =>
    let (r, m) := m.runTree o t
    (.ok r, m)

/-- The machines after each step that neither aborts nor faults, as `loop` goes through them. -/
def visited (o : Options) : Nat → Machine ρ → List (Machine ρ)
  | 0,          _ => []
  | budget + 1, m =>
    match m.step o with
    | some (.next m') => m' :: visited o budget m'
    | _               => []

end Machine
end PushMachine
