import PushMachine.Text.Quoted
/-!
# Stacks

A stack is the list of its items, top first.  Depths count from the top, and a depth outside the stack means its
nearest end.
-/
namespace PushMachine

abbrev Stack (α : Type) := List α

namespace Stack

variable {α : Type}

def push (x : α) (s : Stack α) : Stack α := x :: s

/-- The top, if there is one, and the rest. -/
def pop : Stack α → Option α × Stack α
  | []     => (none, [])
  | x :: s => (some x, s)

def peek (s : Stack α) : Option α := s.head?

def dup : Stack α → Stack α
  | []     => []
  | x :: s => x :: x :: s

def swap : Stack α → Stack α
  | x :: y :: s => y :: x :: s
  | s           => s

/-- The third item comes to the top. -/
def rot : Stack α → Stack α
  | x :: y :: z :: s => z :: x :: y :: s
  | s                => s

/-- Insert an item so that `depth` items are above it. -/
def shove (x : α) (depth : Int) (s : Stack α) : Stack α := s.insertIdx (min depth.toNat s.length) x

/-- Move the item at `depth` to the top. -/
def yank (depth : Int) (s : Stack α) : Stack α :=
  let i := min depth.toNat (s.length - 1)
  match s[i]? with
  | some x => x :: s.eraseIdx i
  | none   => s

/-- Copy the item at `depth` to the top. -/
def yankdup (depth : Int) (s : Stack α) : Stack α :=
  match s[min depth.toNat (s.length - 1)]? with
  | some x => x :: s
  | none   => s

/-- A stack as a message shows it: its name and its items from the bottom up. -/
def describe (name : String) (itemText : α → String) (s : Stack α) : String :=
  "Stack(" ++ Text.quoted name ++ ", [" ++ String.intercalate ", " (s.reverse.map itemText) ++ "])"

end Stack
end PushMachine
