import PushMachine.Tree.Basic
/-!
# The six kinds of stack

Each kind of value has one stack.  EXEC holds what is still to be executed and CODE holds trees as data, so both are
stacks of trees.
-/
namespace PushMachine

inductive Kind where
  | integer
  | float
  | boolean
  | name
  | exec
  | code
  deriving DecidableEq, Repr

namespace Kind

/-- All kinds, in the order in which stacks are listed. -/
def all : List Kind := [.integer, .float, .boolean, .name, .exec, .code]

def label : Kind → String
  | .integer => "integer"
  | .float   => "float"
  | .boolean => "boolean"
  | .name    => "name"
  | .exec    => "exec"
  | .code    => "code"

def ofLabel? (label : String) : Option Kind := all.find? (·.label == label)

/-- What the stack of a kind holds. -/
abbrev Item : Kind → Type
  | .integer => Int
  | .float   => Float
  | .boolean => Bool
  | .name    => String
  | .exec    => Tree
  | .code    => Tree

end Kind
end PushMachine
