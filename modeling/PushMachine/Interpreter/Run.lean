import PushMachine.Interpreter.Instruction
import PushMachine.Machine.Run
/-!
# Running a program on an interpreter

What is executed and how a run ends is as for a machine.  An interpreter that is traced puts all its items into words
after each step, and an integer that is too long to be written stops it there.
-/
namespace PushMachine

/-- The instructions of a stack that the options leave it, by the name of their operation. -/
def Options.registry (o : Options) (k : Kind) : Registry Instruction :=
  ⟨k.label, (Instruction.library k).entries.filter fun e => o.instructionEnabled k.label e.1⟩

namespace Interpreter

variable {ρ : Type} [RandomSource ρ]

open Effect

omit [RandomSource ρ] in
/-- The instruction that a reference means. -/
def resolve (o : Options) (it : Interpreter ρ) (stack operation token : String) : Except Abort Instruction :=
  match (Kind.ofLabel? stack).filter it.has with
  | none   => .error (.unknownStack stack token)
  | some k =>
    match (o.registry k).find? operation with
    | some i => .ok i
    | none   => .error (.unknownInstruction stack operation token)

omit [RandomSource ρ] in
/-- Execute a lower-cased name. -/
def executeName (name : String) : Effect ρ Unit := fun it =>
  if it.quoting then offer .name name { it with quoting := false }
  else match it.bindings.lookup name with
    | some t => give .exec t it
    | none   => offer .name name it

/-- **Execute one item.** -/
def execute (o : Options) : Tree → Effect ρ Unit
  | .list items => update .exec (items ++ ·)
  | .atom token =>
    match Token.classify token with
    | .error f                           => halt (.fault f)
    | .ok (.integer n)                   => offer .integer n
    | .ok (.float x)                     => offer .float x
    | .ok (.boolean b)                   => offer .boolean b
    | .ok (.name name)                   => executeName name
    | .ok (.instruction stack operation) => fun it =>
      match it.resolve o stack operation token with
      | .error a => halt (.abort a) it
      | .ok i    => i.act o it

omit [RandomSource ρ] in
/-- Put every item into words, if that is asked for. -/
def trace (o : Options) : Effect ρ Unit := fun it =>
  if o.tracing && !(it.integer.getD []).all Number.isWritable then halt (.fault .integerTooLong) it else (.ok (), it)

/-- **One step**: pop the top item of EXEC, count it, and execute it. -/
def step (o : Options) (it : Interpreter ρ) : Option (Except Halt Unit × Interpreter ρ) :=
  match it.get? .exec with
  | none             => some (.error (.missing .exec), it)
  | some []          => none
  | some (t :: rest) => some ((do execute o t; trace o) (it.popped rest))

/-- Steps while EXEC is not empty, at most so many of them. -/
def loop (o : Options) : Nat → Effect ρ Ending
  | 0,          it => (.ok (.exhausted o.stepLimit it.steps), it)
  | budget + 1, it =>
    match it.step o with
    | none                         => (.ok (.completed it.steps), it)
    | some (.ok (), it)            => loop o budget it
    | some (.error (.abort a), it) => (.ok (.aborted a it.steps), it)
    | some (.error h, it)          => (.error h, it)

omit [RandomSource ρ] in
/-- The steps that are left. -/
def budget (o : Options) (it : Interpreter ρ) : Nat := (o.stepLimit - it.steps).toNat

/-- **Push a tree onto EXEC and run.** -/
def runCode (o : Options) (t : Tree) : Effect ρ Ending := do
  give .exec t
  fun it => loop o (it.budget o) it

omit [RandomSource ρ] in
/-- What is done before a program runs. -/
def start (o : Options) (t : Tree) : Effect ρ Unit := do
  modify reset
  let there ← read (·.has .code)
  if o.pushProgram && there then give .code t else return

omit [RandomSource ρ] in
/-- What is done after it has run. -/
def finish (o : Options) : Effect ρ Unit := do
  let there ← read (·.has .code)
  if o.popProgram && there then update .code List.tail else return

/-- **Run a program** from a fresh count of steps. -/
def runTree (o : Options) (t : Tree) : Effect ρ Ending := do
  start o t
  let e ← runCode o t
  finish o
  return e

/-- Run a program text; one that is not balanced runs nothing. -/
def run (o : Options) (it : Interpreter ρ) (text : String) : Except ParseError (Except Halt Ending) × Interpreter ρ :=
  match Tree.parse text with
  | .error e => (.error e, it)
  | .ok t    =>
    let (r, it) := runTree o t it
    (.ok r, it)

end Interpreter
end PushMachine
