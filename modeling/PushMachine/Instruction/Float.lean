import PushMachine.Instruction.Basic
import PushMachine.Machine.State
import PushMachine.Number.Binary
/-!
# FLOAT instructions

The top item is the right operand.  Arithmetic is that of binary floating point, so it may give an infinity or no
number at all; only a zero divisor and a trigonometric function of something infinite are refused.
-/
namespace PushMachine
namespace FloatOp

variable {ρ : Type} [RandomSource ρ]

/-- The left operand, unless the right one is greater. -/
def greaterOf (a b : Float) : Float := if b > a then b else a

/-- The left operand, unless the right one is less. -/
def lesserOf (a b : Float) : Float := if b < a then b else a

/-- Replace the two top floats by a value of them. -/
def binary (f : Float → Float → Float) (m : Machine ρ) : Machine ρ :=
  match m.float with
  | b :: a :: rest => { m with float := f a b :: rest }
  | _              => m

/-- The same for operations that need a divisor. -/
def divide (f : Float → Float → Float) (m : Machine ρ) : Machine ρ :=
  match m.float with
  | b :: a :: rest => if b == 0.0 then m else { m with float := f a b :: rest }
  | _              => m

/-- Replace the two top floats by a boolean. -/
def compare (o : Options) (p : Float → Float → Bool) (m : Machine ρ) : Machine ρ :=
  match m.float with
  | b :: a :: rest => if o.enables .boolean then { m with float := rest, boolean := p a b :: m.boolean } else m
  | _              => m

/-- Replace the top float, if it is finite, by a function of it. -/
def unary (f : Float → Float) (m : Machine ρ) : Machine ρ :=
  match m.float with
  | x :: rest => if Number.isFinite x then { m with float := f x :: rest } else m
  | []        => m

def ofBoolean (m : Machine ρ) : Machine ρ :=
  match m.boolean with
  | b :: rest => { m with boolean := rest, float := (if b then 1.0 else 0.0) :: m.float }
  | []        => m

/-- The nearest float.  The integer is popped even if there is none. -/
def ofInteger (m : Machine ρ) : Outcome Fault ρ :=
  match m.integer with
  | n :: rest =>
    match Number.floatOfInt? n with
    | some x => .next { m with integer := rest, float := x :: m.float }
    | none   => .stop .integerTooLarge { m with integer := rest }
  | []        => .next m

def random (o : Options) (m : Machine ρ) : Machine ρ :=
  let (x, source) := Draw.uniform o.minFloat o.maxFloat m.supply.source
  { m with float := x :: m.float, supply := { m.supply with source := source } }

/-- **What a FLOAT instruction does.** -/
def run (o : Options) (m : Machine ρ) : FloatOp → Outcome Fault ρ
  | .add         => .next (binary (· + ·) m)
  | .sub         => .next (binary (· - ·) m)
  | .mul         => .next (binary (· * ·) m)
  | .div         => .next (divide (· / ·) m)
  | .mod         => .next (divide Number.flooredMod m)
  | .less        => .next (compare o (fun a b => a < b) m)
  | .greater     => .next (compare o (fun a b => a > b) m)
  | .max         => .next (binary greaterOf m)
  | .min         => .next (binary lesserOf m)
  | .sin         => .next (unary Float.sin m)
  | .cos         => .next (unary Float.cos m)
  | .tan         => .next (unary Float.tan m)
  | .fromBoolean => .next (ofBoolean m)
  | .fromInteger => ofInteger m
  | .rand        => .next (random o m)

end FloatOp
end PushMachine
