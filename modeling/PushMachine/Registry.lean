import PushMachine.Text.Lowercase
/-!
# Registries

The operations of one stack by name, in the order in which they were added.  Names are lower-cased when they are
added, and a name is added once.
-/
namespace PushMachine

structure Registry (α : Type) where
  stack   : String
  entries : List (String × α) := []

/-- An operation was added that is there already. -/
structure DuplicateOperation where
  stack     : String
  operation : String
  deriving DecidableEq, Repr

def DuplicateOperation.message (d : DuplicateOperation) : String :=
  "duplicate instruction " ++ d.stack ++ "." ++ d.operation

namespace Registry

variable {α : Type}

def names (r : Registry α) : List String := r.entries.map (·.1)

def size (r : Registry α) : Nat := r.entries.length

/-- The operation of exactly this name. -/
def find? (r : Registry α) (name : String) : Option α :=
  (r.entries.find? (·.1 == name)).map (·.2)

def contains (r : Registry α) (name : String) : Bool := (r.find? name).isSome

def add (r : Registry α) (name : String) (value : α) : Except DuplicateOperation (Registry α) :=
  let key := Text.lower name
  if r.contains key then .error ⟨r.stack, key⟩
  else .ok { r with entries := r.entries ++ [(key, value)] }

end Registry
end PushMachine
