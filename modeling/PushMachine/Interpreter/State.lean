import PushMachine.Machine.Execute
/-!
# Interpreters

An interpreter is a machine that has no stacks but those it was built with.  A stack that is not there cannot be looked
up: what reads it or writes it anyway halts there and then, and so does what takes an item off a stack that holds too
few.  An instruction has to see to it beforehand that neither happens, and `stackOk` is what it asks.
-/
namespace PushMachine

/-- **The stacks that are there.** -/
structure Rack where
  integer : Option (Stack Int) := none
  float   : Option (Stack Float) := none
  boolean : Option (Stack Bool) := none
  name    : Option (Stack String) := none
  exec    : Option (Stack Tree) := none
  code    : Option (Stack Tree) := none

namespace Rack

def get? (r : Rack) : (k : Kind) → Option (Stack k.Item)
  | .integer => r.integer
  | .float   => r.float
  | .boolean => r.boolean
  | .name    => r.name
  | .exec    => r.exec
  | .code    => r.code

def set (r : Rack) : (k : Kind) → Stack k.Item → Rack
  | .integer, xs => { r with integer := xs }
  | .float,   xs => { r with float := xs }
  | .boolean, xs => { r with boolean := xs }
  | .name,    xs => { r with name := xs }
  | .exec,    xs => { r with exec := xs }
  | .code,    xs => { r with code := xs }

@[simp] theorem get?_set_self (r : Rack) (k : Kind) (xs : Stack k.Item) : (r.set k xs).get? k = some xs := by
  cases k <;> rfl

theorem get?_set_of_ne (r : Rack) {j k : Kind} (h : j ≠ k) (xs : Stack k.Item) : (r.set k xs).get? j = r.get? j := by
  cases j <;> cases k <;> first | rfl | exact absurd rfl h

/-- An empty stack of each kind that the options enable. -/
def build (o : Options) : Rack := Kind.all.foldl (fun r k => if o.enables k then r.set k [] else r) {}

/-- Empty every stack. -/
def flush (r : Rack) : Rack where
  integer := r.integer.map fun _ => []
  float   := r.float.map fun _ => []
  boolean := r.boolean.map fun _ => []
  name    := r.name.map fun _ => []
  exec    := r.exec.map fun _ => []
  code    := r.code.map fun _ => []

end Rack

structure Interpreter (ρ : Type) extends Rack where
  bindings : Bindings := {}
  /-- The next name is pushed even if it is bound. -/
  quoting  : Bool := false
  /-- Items executed in the current run. -/
  steps    : Nat := 0
  supply   : Supply ρ

/-- What stops an interpreter. -/
inductive Halt where
  | abort (a : Abort)
  | fault (f : Fault)
  /-- A stack was looked up that is not there. -/
  | missing (k : Kind)
  /-- An item was taken off a stack that holds too few. -/
  | short (k : Kind)
  deriving DecidableEq, Repr

namespace Interpreter

variable {ρ : Type}

/-- **A new interpreter.** -/
def build (o : Options) (source : ρ) : Interpreter ρ := { Rack.build o with supply := { source := source } }

/-- Whether a stack is there. -/
def has (it : Interpreter ρ) (k : Kind) : Bool := (it.get? k).isSome

/-- **Whether a stack is there and holds at least `depth` items.** -/
def stackOk (it : Interpreter ρ) (k : Kind) (depth : Int) : Bool :=
  match it.get? k with
  | some xs => depth ≤ xs.length
  | none    => false

def put (it : Interpreter ρ) (k : Kind) (xs : Stack k.Item) : Interpreter ρ := { it with toRack := it.toRack.set k xs }

/-- The interpreter once the top item of EXEC is popped and counted. -/
def popped (it : Interpreter ρ) (rest : Stack Tree) : Interpreter ρ := { it.put .exec rest with steps := it.steps + 1 }

/-- Forget the steps and the protected name of the last run. -/
def reset (it : Interpreter ρ) : Interpreter ρ := { it with steps := 0, quoting := false }

/-- Empty every stack. -/
def flush (it : Interpreter ρ) : Interpreter ρ := { it with toRack := it.toRack.flush }

def define (it : Interpreter ρ) (name : String) (tree : Tree) : Interpreter ρ :=
  { it with bindings := it.bindings.bind name tree }

end Interpreter

/-- **What is done to an interpreter**: it gives a value or halts, and in either case it leaves an interpreter. -/
def Effect (ρ α : Type) := Interpreter ρ → Except Halt α × Interpreter ρ

namespace Effect

variable {ρ α β : Type}

protected def pure (a : α) : Effect ρ α := fun it => (.ok a, it)

protected def bind (act : Effect ρ α) (f : α → Effect ρ β) : Effect ρ β := fun it =>
  match act it with
  | (.ok a, it)    => f a it
  | (.error h, it) => (.error h, it)

instance : Monad (Effect ρ) where
  pure := Effect.pure
  bind := Effect.bind

theorem bind_ok {act : Effect ρ α} {f : α → Effect ρ β} {it it' : Interpreter ρ} {a : α} (h : act it = (.ok a, it')) :
    (act >>= f) it = f a it' := by
  show Effect.bind act f it = _
  rw [Effect.bind, h]

theorem bind_error {act : Effect ρ α} {f : α → Effect ρ β} {it it' : Interpreter ρ} {halt : Halt}
    (h : act it = (.error halt, it')) : (act >>= f) it = (.error halt, it') := by
  show Effect.bind act f it = _
  rw [Effect.bind, h]

def halt (h : Halt) : Effect ρ α := fun it => (.error h, it)

/-- What was found without looking at the interpreter. -/
def ofExcept : Except Fault α → Effect ρ α
  | .ok a    => pure a
  | .error f => halt (.fault f)

/-- What is generated at random. -/
def generate (g : Generator ρ α) : Effect ρ α := fun it =>
  match g it.supply with
  | (.ok a, supply)    => (.ok a, { it with supply := supply })
  | (.error f, supply) => (.error (.fault f), { it with supply := supply })

/-- What the interpreter is beside its stacks. -/
def read (f : Interpreter ρ → α) : Effect ρ α := fun it => (.ok (f it), it)

def modify (f : Interpreter ρ → Interpreter ρ) : Effect ρ Unit := fun it => (.ok (), f it)

/-! ## Access to a stack -/

/-- The items of a stack. -/
def items (k : Kind) : Effect ρ (Stack k.Item) := fun it =>
  match it.get? k with
  | some xs => (.ok xs, it)
  | none    => (.error (.missing k), it)

/-- Change a stack. -/
def update (k : Kind) (f : Stack k.Item → Stack k.Item) : Effect ρ Unit := fun it =>
  match it.get? k with
  | some xs => (.ok (), it.put k (f xs))
  | none    => (.error (.missing k), it)

/-- The item at a depth. -/
def pick (k : Kind) (depth : Nat) : Effect ρ k.Item := do
  match (← items k)[depth]? with
  | some x => return x
  | none   => halt (.short k)

def peek (k : Kind) : Effect ρ k.Item := pick k 0

def take (k : Kind) : Effect ρ k.Item := do
  let x ← peek k
  update k List.tail
  return x

def give (k : Kind) (x : k.Item) : Effect ρ Unit := update k (x :: ·)

/-- Push an item if the stack is there. -/
def offer (k : Kind) (x : k.Item) : Effect ρ Unit := fun it => if it.has k then give k x it else (.ok (), it)

/-- **Act if these stacks are there and hold so many items**, and do nothing otherwise. -/
def guarded (needs : List (Kind × Nat)) (act : Effect ρ Unit) : Effect ρ Unit := fun it =>
  if needs.all fun p => it.stackOk p.1 p.2 then act it else (.ok (), it)

end Effect
end PushMachine
