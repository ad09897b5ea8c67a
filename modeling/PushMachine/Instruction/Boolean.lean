import PushMachine.Instruction.Basic
import PushMachine.Machine.State
/-!
# BOOLEAN instructions

Logic on the top of the BOOLEAN stack, and conversions: a number is true unless it is zero.
-/
namespace PushMachine
namespace BooleanOp

variable {ρ : Type} [RandomSource ρ]

/-- Replace the two top booleans by a value of them. -/
def binary (f : Bool → Bool → Bool) (m : Machine ρ) : Machine ρ :=
  match m.boolean with
  | b :: a :: rest => { m with boolean := f a b :: rest }
  | _              => m

def negate (m : Machine ρ) : Machine ρ :=
  match m.boolean with
  | b :: rest => { m with boolean := (!b) :: rest }
  | []        => m

/-- Everything but zero is true, also what is no number. -/
def ofFloat (m : Machine ρ) : Machine ρ :=
  match m.float with
  | x :: rest => { m with float := rest, boolean := (x != 0.0) :: m.boolean }
  | []        => m

def ofInteger (m : Machine ρ) : Machine ρ :=
  match m.integer with
  | n :: rest => { m with integer := rest, boolean := (n != 0) :: m.boolean }
  | []        => m

def random (m : Machine ρ) : Machine ρ :=
  let (b, source) := Draw.chance 0.5 m.supply.source
  { m with boolean := b :: m.boolean, supply := { m.supply with source := source } }

/-- **What a BOOLEAN instruction does.** -/
def run (m : Machine ρ) : BooleanOp → Machine ρ
  | .and         => binary (· && ·) m
  | .or          => binary (· || ·) m
  | .not         => negate m
  | .fromFloat   => ofFloat m
  | .fromInteger => ofInteger m
  | .rand        => random m

end BooleanOp
end PushMachine
