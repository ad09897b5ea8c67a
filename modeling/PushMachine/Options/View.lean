import PushMachine.Options.Basic
import PushMachine.Json
/-!
# Options on show

The fields of options in their fixed order, in three notations: a JSON document, one plain line per field, and the
single line that a log shows.
-/
namespace PushMachine

inductive Field where
  | flag (f : FlagField)
  | integer (f : IntegerField)
  | float (f : FloatField)
  | types
  | instructions

namespace Field

/-- All fields in the order in which they are listed. -/
def all : List Field :=
  [.flag .pushProgram, .flag .popProgram, .integer .stepLimit, .float .nameProbability, .integer .programPoints,
    .integer .randomPoints, .float .maxFloat, .float .minFloat, .integer .maxInteger, .integer .minInteger,
    .flag .tracing, .integer .seed, .types, .instructions]

def label : Field → String
  | .flag f       => f.label
  | .integer f    => f.label
  | .float f      => f.label
  | .types        => "allowed_types"
  | .instructions => "allowed_instructions"

def json (o : Options) : Field → Json
  | .flag f       => .boolean (o.flag f)
  | .integer f    => .integer (o.integer f)
  | .float f      => .float (o.float f)
  | .types        => .array (o.types.map .string)
  | .instructions => .array (o.instructions.map .string)

end Field

/-- A boolean in a line of text. -/
def booleanText (b : Bool) : String := if b then "True" else "False"

/-- Names quoted and separated by commas. -/
def quotedNames (names : List String) : String := String.intercalate ", " (names.map Text.quoted)

namespace Field

/-- A field in a line of its own. -/
def plain (o : Options) : Field → String
  | .flag f       => booleanText (o.flag f)
  | .integer f    => (o.integer f).repr
  | .float f      => Number.floatText (o.float f)
  | .types        => "[" ++ quotedNames o.types ++ "]"
  | .instructions => "[" ++ quotedNames o.instructions ++ "]"

/-- A set of names in a log line. -/
def setText (names : NameSet) : String :=
  if names.isEmpty then "frozenset()" else "frozenset(\x7b" ++ quotedNames names ++ "\x7d)"

/-- A field in a log line. -/
def logged (o : Options) : Field → String
  | .types        => setText o.types
  | .instructions => setText o.instructions
  | f             => f.plain o

end Field

namespace Options

/-- The fields as members of a document. -/
def members (o : Options) : List (String × Json) := Field.all.map fun f => (f.label, f.json o)

def json (o : Options) : Json := .object o.members

/-- One line per field. -/
def plainLines (o : Options) : List String := Field.all.map fun f => "  " ++ f.label ++ ": " ++ f.plain o

/-- All fields in one line. -/
def logged (o : Options) : String :=
  "Options(" ++ String.intercalate ", " (Field.all.map fun f => f.label ++ "=" ++ f.logged o) ++ ")"

end Options
end PushMachine
