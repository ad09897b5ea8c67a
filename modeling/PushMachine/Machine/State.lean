import PushMachine.Bindings
import PushMachine.Kind
import PushMachine.Options.Basic
import PushMachine.Random.Supply
import PushMachine.Stack
/-!
# The state of a machine

Six stacks, the bindings, the flag that protects the next name, the number of steps of the current run, and the supply
of random values.  Options are no part of the state: they are fixed for a machine and passed along.  A machine has all
six stacks, and those of types that the options do not enable stay empty; an `Interpreter` has no such stacks.
-/
namespace PushMachine

structure Stacks where
  integer : Stack Int := []
  float   : Stack Float := []
  boolean : Stack Bool := []
  name    : Stack String := []
  exec    : Stack Tree := []
  code    : Stack Tree := []

namespace Stacks

def get (s : Stacks) : (k : Kind) → Stack k.Item
  | .integer => s.integer
  | .float   => s.float
  | .boolean => s.boolean
  | .name    => s.name
  | .exec    => s.exec
  | .code    => s.code

def set (s : Stacks) : (k : Kind) → Stack k.Item → Stacks
  | .integer, xs => { s with integer := xs }
  | .float,   xs => { s with float := xs }
  | .boolean, xs => { s with boolean := xs }
  | .name,    xs => { s with name := xs }
  | .exec,    xs => { s with exec := xs }
  | .code,    xs => { s with code := xs }

@[simp] theorem get_set_self (s : Stacks) (k : Kind) (xs : Stack k.Item) : (s.set k xs).get k = xs := by
  cases k <;> rfl

theorem get_set_of_ne (s : Stacks) {j k : Kind} (h : j ≠ k) (xs : Stack k.Item) : (s.set k xs).get j = s.get j := by
  cases j <;> cases k <;> first | rfl | exact absurd rfl h

end Stacks

structure Machine (ρ : Type) extends Stacks where
  bindings : Bindings := {}
  /-- The next name is pushed even if it is bound. -/
  quoting  : Bool := false
  /-- Items executed in the current run. -/
  steps    : Nat := 0
  supply   : Supply ρ

namespace Machine

variable {ρ : Type}

def stack (m : Machine ρ) (k : Kind) : Stack k.Item := m.toStacks.get k

def setStack (m : Machine ρ) (k : Kind) (xs : Stack k.Item) : Machine ρ := { m with toStacks := m.toStacks.set k xs }

/-- A machine with nothing on its stacks. -/
def initial (source : ρ) : Machine ρ := { supply := { source := source } }

/-- Forget the steps and the protected name of the last run. -/
def reset (m : Machine ρ) : Machine ρ := { m with steps := 0, quoting := false }

/-- Empty every stack. -/
def flush (m : Machine ρ) : Machine ρ := { m with toStacks := {} }

def define (m : Machine ρ) (name : String) (tree : Tree) : Machine ρ :=
  { m with bindings := m.bindings.bind name tree }

end Machine

/-- How something done to a machine ended: normally, or for a cause, and the machine it left. -/
inductive Outcome (ε ρ : Type) where
  | next (machine : Machine ρ)
  | stop (cause : ε) (machine : Machine ρ)

namespace Outcome

variable {ε ρ : Type}

def machine : Outcome ε ρ → Machine ρ
  | .next m   => m
  | .stop _ m => m

end Outcome
end PushMachine
