import PushMachine.Json
import PushMachine.Machine.State
import PushMachine.Options.View
import PushMachine.Tree.Print
/-!
# A machine on show

The stacks, top first, and the bindings of a machine, as a document and as lines of text.  Only enabled stacks are
shown. A float that is no finite number is a string in a document.
-/
namespace PushMachine
namespace Kind

def itemJson : (k : Kind) → k.Item → Json
  | .integer, n => .integer n
  | .float,   x => if Number.isFinite x then .float x else .string (Number.floatText x)
  | .boolean, b => .boolean b
  | .name,    s => .string s
  | .exec,    t => .string t.text
  | .code,    t => .string t.text

def itemText : (k : Kind) → k.Item → String
  | .integer, n => n.repr
  | .float,   x => Number.floatText x
  | .boolean, b => booleanText b
  | .name,    s => s
  | .exec,    t => t.text
  | .code,    t => t.text

end Kind

/-- The stacks that a machine with these options has. -/
def Options.kinds (o : Options) : List Kind := Kind.all.filter o.enables

namespace Machine

variable {ρ : Type}

/-- The items of the enabled stacks. -/
def stacksJson (o : Options) (m : Machine ρ) : Json :=
  .object (o.kinds.map fun k => (k.label, .array ((m.stack k).map k.itemJson)))

/-- Bound names and the texts of their trees, in the order of binding. -/
def bindingTexts (m : Machine ρ) : List (String × String) := m.bindings.entries.map fun (name, t) => (name, t.text)

def bindingsJson (m : Machine ρ) : Json := .object (m.bindingTexts.map fun (name, text) => (name, .string text))

/-- A stack in a line: its name and its items. -/
def stackLine (m : Machine ρ) (k : Kind) : String :=
  k.label ++ ": " ++ String.intercalate " " ((m.stack k).map k.itemText)

def stackLines (o : Options) (m : Machine ρ) : List String := o.kinds.map m.stackLine

end Machine
end PushMachine
