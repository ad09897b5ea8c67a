import PushMachine.Instruction.Basic
import PushMachine.Machine.State
/-!
# NAME instructions

Protecting the next name from being replaced by what it is bound to, and random names, new or bound.
-/
namespace PushMachine
namespace NameOp

variable {ρ : Type} [RandomSource ρ]

/-- Push a name that was not generated before. -/
def newName (m : Machine ρ) : Outcome Fault ρ :=
  match Supply.newName m.supply with
  | (.ok name, supply) => .next { m with name := name :: m.name, supply := supply }
  | (.error e, supply) => .stop e { m with supply := supply }

/-- Push one of the bound names. -/
def boundName (m : Machine ρ) : Machine ρ :=
  match m.bindings.names with
  | []            => m
  | name :: names =>
    let (chosen, source) := Draw.choose name names m.supply.source
    { m with name := chosen :: m.name, supply := { m.supply with source := source } }

/-- **What a NAME instruction does.** -/
def run (m : Machine ρ) : NameOp → Outcome Fault ρ
  | .quote         => .next { m with quoting := true }
  | .rand          => newName m
  | .randBoundName => .next (boundName m)

end NameOp
end PushMachine
