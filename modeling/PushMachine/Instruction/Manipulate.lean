import PushMachine.Instruction.Basic
import PushMachine.Machine.State
import PushMachine.Tree.Value
/-!
# Manipulating a stack

The instructions that every stack has.  Those that take a depth pop it from INTEGER first, so on the INTEGER stack the
depth is not an item they act on.
-/
namespace PushMachine

/-- Equality of two items of a stack, as floats compare for floats. -/
def Kind.same : (k : Kind) → k.Item → k.Item → Bool
  | .integer, a, b => a == b
  | .float,   a, b => a == b
  | .boolean, a, b => a == b
  | .name,    a, b => a == b
  | .exec,    a, b => a == b
  | .code,    a, b => a == b

namespace StackOp

variable {ρ : Type}

/-- Pop a depth and act with it on a stack that is not empty. -/
def withDepth (k : Kind) (act : Int → Stack k.Item → Stack k.Item) (m : Machine ρ) : Machine ρ :=
  match m.integer with
  | []        => m
  | depth :: rest =>
    let popped := { m with integer := rest }
    match popped.stack k with
    | [] => m
    | xs => popped.setStack k (act depth xs)

/-- The top item moves down to a depth. -/
def shoveTop {α : Type} (depth : Int) : Stack α → Stack α
  | []      => []
  | x :: xs => Stack.shove x depth xs

/-- Pop a name and an item, and bind the name to the item's code. -/
def defineTop (k : Kind) (m : Machine ρ) : Outcome Fault ρ :=
  match m.name with
  | []            => .next m
  | key :: names  =>
    let popped := { m with name := names }
    match popped.stack k with
    | []      => .next m
    | x :: xs =>
      match Tree.ofItem k x with
      | .ok t    => .next ((popped.setStack k xs).define key t)
      | .error e => .stop e (popped.setStack k xs)

/-- Pop two items and push whether they are equal. -/
def equalTop (o : Options) (k : Kind) (m : Machine ρ) : Machine ρ :=
  match m.stack k with
  | a :: b :: rest =>
    if o.enables .boolean then
      let popped := m.setStack k rest
      { popped with boolean := k.same b a :: popped.boolean }
    else m
  | _ => m

/-- **What a stack manipulation does.** -/
def run (o : Options) (k : Kind) (m : Machine ρ) : StackOp → Outcome Fault ρ
  | .equal      => .next (equalTop o k m)
  | .define     => defineTop k m
  | .dup        => .next (m.setStack k (m.stack k).dup)
  | .flush      => .next (m.setStack k [])
  | .pop        => .next (m.setStack k (m.stack k).tail)
  | .rot        => .next (m.setStack k (m.stack k).rot)
  | .shove      => .next (withDepth k shoveTop m)
  | .stackdepth => .next (if o.enables .integer then { m with integer := (m.stack k).length :: m.integer } else m)
  | .swap       => .next (m.setStack k (m.stack k).swap)
  | .yank       => .next (withDepth k Stack.yank m)
  | .yankdup    => .next (withDepth k Stack.yankdup m)

end StackOp
end PushMachine
