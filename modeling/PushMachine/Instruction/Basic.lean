import PushMachine.Kind
import PushMachine.Options.Basic
import PushMachine.Registry
/-!
# The instructions

Every stack has the stack manipulations, except that NAME has no `define`; the rest belong to one kind.  An
instruction is written as the label of its stack, a point and the name of its operation.  There are 130.
-/
namespace PushMachine

/-- Manipulations of any stack. -/
inductive StackOp where
  | equal
  | define
  | dup
  | flush
  | pop
  | rot
  | shove
  | stackdepth
  | swap
  | yank
  | yankdup
  deriving DecidableEq, Repr

inductive IntegerOp where
  | add
  | sub
  | mul
  | div
  | mod
  | less
  | greater
  | max
  | min
  | fromBoolean
  | fromFloat
  | rand
  deriving DecidableEq, Repr

inductive FloatOp where
  | add
  | sub
  | mul
  | div
  | mod
  | less
  | greater
  | max
  | min
  | sin
  | cos
  | tan
  | fromBoolean
  | fromInteger
  | rand
  deriving DecidableEq, Repr

inductive BooleanOp where
  | and
  | or
  | not
  | fromFloat
  | fromInteger
  | rand
  deriving DecidableEq, Repr

inductive NameOp where
  | quote
  | rand
  | randBoundName
  deriving DecidableEq, Repr

inductive ExecOp where
  | choose
  | k
  | s
  | y
  | doRange
  | doCount
  | doTimes
  deriving DecidableEq, Repr

inductive CodeOp where
  | append
  | cons
  | list
  | car
  | cdr
  | atom
  | null
  | member
  | length
  | size
  | nth
  | definition
  | doKeep
  | doPop
  | choose
  | quote
  | noop
  | fromBoolean
  | fromFloat
  | fromInteger
  | fromName
  | rand
  deriving DecidableEq, Repr

inductive Instruction where
  | stack (kind : Kind) (op : StackOp)
  | integer (op : IntegerOp)
  | float (op : FloatOp)
  | boolean (op : BooleanOp)
  | name (op : NameOp)
  | exec (op : ExecOp)
  | code (op : CodeOp)
  deriving DecidableEq, Repr

/-! ## Names of operations -/

def StackOp.label : StackOp → String
  | .equal      => "="
  | .define     => "define"
  | .dup        => "dup"
  | .flush      => "flush"
  | .pop        => "pop"
  | .rot        => "rot"
  | .shove      => "shove"
  | .stackdepth => "stackdepth"
  | .swap       => "swap"
  | .yank       => "yank"
  | .yankdup    => "yankdup"

def IntegerOp.label : IntegerOp → String
  | .add         => "+"
  | .sub         => "-"
  | .mul         => "*"
  | .div         => "/"
  | .mod         => "%"
  | .less        => "<"
  | .greater     => ">"
  | .max         => "max"
  | .min         => "min"
  | .fromBoolean => "fromboolean"
  | .fromFloat   => "fromfloat"
  | .rand        => "rand"

def FloatOp.label : FloatOp → String
  | .add         => "+"
  | .sub         => "-"
  | .mul         => "*"
  | .div         => "/"
  | .mod         => "%"
  | .less        => "<"
  | .greater     => ">"
  | .max         => "max"
  | .min         => "min"
  | .sin         => "sin"
  | .cos         => "cos"
  | .tan         => "tan"
  | .fromBoolean => "fromboolean"
  | .fromInteger => "frominteger"
  | .rand        => "rand"

def BooleanOp.label : BooleanOp → String
  | .and         => "and"
  | .or          => "or"
  | .not         => "not"
  | .fromFloat   => "fromfloat"
  | .fromInteger => "frominteger"
  | .rand        => "rand"

def NameOp.label : NameOp → String
  | .quote         => "quote"
  | .rand          => "rand"
  | .randBoundName => "randboundname"

def ExecOp.label : ExecOp → String
  | .choose  => "if"
  | .k       => "k"
  | .s       => "s"
  | .y       => "y"
  | .doRange => "do*range"
  | .doCount => "do*count"
  | .doTimes => "do*times"

def CodeOp.label : CodeOp → String
  | .append      => "append"
  | .cons        => "cons"
  | .list        => "list"
  | .car         => "car"
  | .cdr         => "cdr"
  | .atom        => "atom"
  | .null        => "null"
  | .member      => "member"
  | .length      => "length"
  | .size        => "size"
  | .nth         => "nth"
  | .definition  => "definition"
  | .doKeep      => "do"
  | .doPop       => "do*"
  | .choose      => "if"
  | .quote       => "quote"
  | .noop        => "noop"
  | .fromBoolean => "fromboolean"
  | .fromFloat   => "fromfloat"
  | .fromInteger => "frominteger"
  | .fromName    => "fromname"
  | .rand        => "rand"

def StackOp.all : List StackOp :=
  [.equal, .define, .dup, .flush, .pop, .rot, .shove, .stackdepth, .swap, .yank, .yankdup]

def IntegerOp.all : List IntegerOp :=
  [.add, .sub, .mul, .div, .mod, .less, .greater, .max, .min, .fromBoolean, .fromFloat, .rand]

def FloatOp.all : List FloatOp :=
  [.add, .sub, .mul, .div, .mod, .less, .greater, .max, .min, .sin, .cos, .tan, .fromBoolean, .fromInteger, .rand]

def BooleanOp.all : List BooleanOp := [.and, .or, .not, .fromFloat, .fromInteger, .rand]

def NameOp.all : List NameOp := [.quote, .rand, .randBoundName]

def ExecOp.all : List ExecOp := [.choose, .k, .s, .y, .doRange, .doCount, .doTimes]

def CodeOp.all : List CodeOp :=
  [.append, .cons, .list, .car, .cdr, .atom, .null, .member, .length, .size, .nth, .definition, .doKeep, .doPop,
    .choose, .quote, .noop, .fromBoolean, .fromFloat, .fromInteger, .fromName, .rand]

/-! ## Libraries -/

namespace Instruction

/-- The stack an instruction belongs to. -/
def kind : Instruction → Kind
  | .stack k _  => k
  | .integer _  => .integer
  | .float _    => .float
  | .boolean _  => .boolean
  | .name _     => .name
  | .exec _     => .exec
  | .code _     => .code

def operation : Instruction → String
  | .stack _ op => op.label
  | .integer op => op.label
  | .float op   => op.label
  | .boolean op => op.label
  | .name op    => op.label
  | .exec op    => op.label
  | .code op    => op.label

/-- How a program refers to an instruction. -/
def token (i : Instruction) : String := i.kind.label ++ "." ++ i.operation

/-- The stack manipulations of a kind. -/
def manipulations (k : Kind) : List Instruction :=
  (StackOp.all.filter fun op => !(k == .name && op == .define)).map (.stack k)

/-- The instructions of a kind. -/
def ofKind : Kind → List Instruction
  | .integer => manipulations .integer ++ IntegerOp.all.map .integer
  | .float   => manipulations .float ++ FloatOp.all.map .float
  | .boolean => manipulations .boolean ++ BooleanOp.all.map .boolean
  | .name    => manipulations .name ++ NameOp.all.map .name
  | .exec    => manipulations .exec ++ ExecOp.all.map .exec
  | .code    => manipulations .code ++ CodeOp.all.map .code

/-- The instructions of a kind by the name of their operation. -/
def library (k : Kind) : Registry Instruction := ⟨k.label, (ofKind k).map fun i => (i.operation, i)⟩

def find? (k : Kind) (operation : String) : Option Instruction := (library k).find? operation

/-- **All instructions.** -/
def all : List Instruction := Kind.all.flatMap ofKind

/-- All instructions with their tokens, in the order of the tokens. -/
def catalogue : List (String × Instruction) :=
  (all.map fun i => (i.token, i)).mergeSort fun a b => a.1 ≤ b.1

end Instruction

namespace Options

/-- Whether a machine with these options has an instruction. -/
def allows (o : Options) (i : Instruction) : Bool :=
  o.enables i.kind && o.instructionEnabled i.kind.label i.operation

/-- The tokens of the instructions a machine with these options has, in order. -/
def instructionTokens (o : Options) : List String :=
  (Instruction.catalogue.filter fun p => o.allows p.2).map (·.1)

/-- The instructions that are allowed by name and that no library has, in order. -/
def missingInstructions (o : Options) : List String :=
  o.instructions.filter fun token => !Instruction.all.any (·.token == token)

end Options
end PushMachine
