import PushMachine.Instruction.Boolean
import PushMachine.Instruction.Code
import PushMachine.Instruction.Float
import PushMachine.Instruction.Integer
import PushMachine.Instruction.Manipulate
import PushMachine.Instruction.Name
import PushMachine.Token
/-!
# Executing one item

A list is opened: its items go onto EXEC in order.  A literal goes onto its stack, or nowhere if the stack is not
enabled. A reference to an instruction runs it; a reference to what is not there aborts.  A name that is bound is
replaced by its tree, unless it is protected; any other name goes onto NAME.
-/
namespace PushMachine

/-- A reference to a stack or an instruction that does not exist or is not enabled. -/
inductive Abort where
  | unknownStack (stack token : String)
  | unknownInstruction (stack operation token : String)
  deriving DecidableEq, Repr

def Abort.message : Abort → String
  | .unknownStack stack _                 => "unknown or disabled stack: " ++ stack
  | .unknownInstruction stack operation _ => "unknown or disabled instruction " ++ stack ++ "." ++ operation

/-- The atom that could not be executed, as written. -/
def Abort.token : Abort → String
  | .unknownStack _ token         => token
  | .unknownInstruction _ _ token => token

/-- What stops an execution. -/
inductive Stop where
  | abort (a : Abort)
  | fault (f : Fault)
  deriving DecidableEq, Repr

variable {ρ : Type} [RandomSource ρ]

/-- **What an instruction does.** -/
def Instruction.run (o : Options) (m : Machine ρ) : Instruction → Outcome Fault ρ
  | .stack k op => op.run o k m
  | .integer op => .next (op.run o m)
  | .float op   => op.run o m
  | .boolean op => .next (op.run m)
  | .name op    => op.run m
  | .exec op    => op.run o m
  | .code op    => op.run o m

/-- The instruction that a reference means under the options. -/
def Options.resolve (o : Options) (stack operation token : String) : Except Abort Instruction :=
  match Kind.ofLabel? stack with
  | none   => .error (.unknownStack stack token)
  | some k =>
    if !o.enables k then .error (.unknownStack stack token)
    else match Instruction.find? k operation with
      | none   => .error (.unknownInstruction stack operation token)
      | some i =>
        if o.instructionEnabled stack operation then .ok i else .error (.unknownInstruction stack operation token)

namespace Machine

/-- Push an item if its stack is enabled. -/
def pushEnabled (o : Options) (m : Machine ρ) (k : Kind) (x : k.Item) : Machine ρ :=
  if o.enables k then m.setStack k (x :: m.stack k) else m

/-- Execute a lower-cased name. -/
def executeName (o : Options) (m : Machine ρ) (name : String) : Machine ρ :=
  if m.quoting then { m with quoting := false }.pushEnabled o .name name
  else match m.bindings.lookup name with
    | some t => { m with exec := t :: m.exec }
    | none   => m.pushEnabled o .name name

/-- **Execute one item.** -/
def execute (o : Options) (m : Machine ρ) : Tree → Outcome Stop ρ
  | .list items => .next { m with exec := items ++ m.exec }
  | .atom token =>
    match Token.classify token with
    | .error f                             => .stop (.fault f) m
    | .ok (.integer n)                     => .next (m.pushEnabled o .integer n)
    | .ok (.float x)                       => .next (m.pushEnabled o .float x)
    | .ok (.boolean b)                     => .next (m.pushEnabled o .boolean b)
    | .ok (.name name)                     => .next (m.executeName o name)
    | .ok (.instruction stack operation)   =>
      match o.resolve stack operation token with
      | .error a => .stop (.abort a) m
      | .ok i    =>
        match i.run o m with
        | .next m'   => .next m'
        | .stop f m' => .stop (.fault f) m'

end Machine
end PushMachine
