import PushMachine.Instruction.Basic
import PushMachine.Machine.State
import PushMachine.Number.Binary
import PushMachine.Number.Int64
/-!
# INTEGER instructions

The top item is the right operand.  Sums, differences, products and quotients wrap to 64 bits; quotients round toward
zero, and remainders take the sign of the divisor.
-/
namespace PushMachine
namespace IntegerOp

variable {ρ : Type} [RandomSource ρ]

/-- Replace the two top integers by a value of them. -/
def binary (f : Int → Int → Int) (m : Machine ρ) : Machine ρ :=
  match m.integer with
  | b :: a :: rest => { m with integer := f a b :: rest }
  | _              => m

/-- The same for operations that need a divisor. -/
def divide (f : Int → Int → Int) (m : Machine ρ) : Machine ρ :=
  match m.integer with
  | b :: a :: rest => if b = 0 then m else { m with integer := f a b :: rest }
  | _              => m

/-- Replace the two top integers by a boolean. -/
def compare (o : Options) (p : Int → Int → Bool) (m : Machine ρ) : Machine ρ :=
  match m.integer with
  | b :: a :: rest => if o.enables .boolean then { m with integer := rest, boolean := p a b :: m.boolean } else m
  | _              => m

def ofBoolean (m : Machine ρ) : Machine ρ :=
  match m.boolean with
  | b :: rest => { m with boolean := rest, integer := (if b then 1 else 0) :: m.integer }
  | []        => m

/-- A finite float without its fraction, brought into the 64-bit range. -/
def ofFloat (m : Machine ρ) : Machine ρ :=
  match m.float with
  | x :: rest =>
    if Number.isFinite x then { m with float := rest, integer := Number.clamp (Number.truncate x) :: m.integer }
    else m
  | []        => m

def random (o : Options) (m : Machine ρ) : Machine ρ :=
  let (n, source) := Draw.between o.minInteger o.maxInteger m.supply.source
  { m with integer := n :: m.integer, supply := { m.supply with source := source } }

/-- **What an INTEGER instruction does.** -/
def run (o : Options) (m : Machine ρ) : IntegerOp → Machine ρ
  | .add         => binary (fun a b => Number.wrap (a + b)) m
  | .sub         => binary (fun a b => Number.wrap (a - b)) m
  | .mul         => binary (fun a b => Number.wrap (a * b)) m
  | .div         => divide (fun a b => Number.wrap (a.tdiv b)) m
  | .mod         => divide (fun a b => a.fmod b) m
  | .less        => compare o (fun a b => a < b) m
  | .greater     => compare o (fun a b => a > b) m
  | .max         => binary Max.max m
  | .min         => binary Min.min m
  | .fromBoolean => ofBoolean m
  | .fromFloat   => ofFloat m
  | .rand        => random o m

end IntegerOp
end PushMachine
