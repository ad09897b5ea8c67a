import PushMachine.Json
import PushMachine.Options.View
import PushMachine.Service.Number
/-!
# Reading request bodies

A request carries a JSON document, and its values are read generously: an integer may be a whole float, a text or a
boolean, and so on.  Everything that cannot be read is reported by its location, a path of names and indices.
-/
namespace PushMachine
namespace Service

def readInteger? : Json → Option Int
  | .integer n => some n
  | .boolean b => some (if b then 1 else 0)
  | .float x   => integerOfFloat? x
  | .string s  => integerInText? s
  | _          => none

def readFloat? : Json → Option Float
  | .integer n => Number.floatOfInt? n
  | .boolean b => some (if b then 1.0 else 0.0)
  | .float x   => some x
  | .string s  => floatInText? s
  | _          => none

def trueWords : List String := ["1", "on", "t", "true", "y", "yes"]
def falseWords : List String := ["0", "off", "f", "false", "n", "no"]

def readFlag? : Json → Option Bool
  | .boolean b => some b
  | .integer n => if n = 0 then some false else if n = 1 then some true else none
  | .float x   => if x == 0.0 then some false else if x == 1.0 then some true else none
  | .string s  =>
    let word := String.ofList (s.toList.map Char.toLower)
    if trueWords.contains word then some true else if falseWords.contains word then some false else none
  | _          => none

/-- Read names; the indices of the items that are none, from `index` on. -/
def readNames (index : Nat) : List Json → List String × List Nat
  | []                => ([], [])
  | .string s :: rest => let (names, bad) := readNames (index + 1) rest; (s :: names, bad)
  | _ :: rest         => let (names, bad) := readNames (index + 1) rest; (names, index :: bad)

/-- What was read, and the locations of what could not be. -/
structure Reading (α : Type) where
  value   : α
  invalid : List String := []

/-- A location inside another. -/
def inside (location name : String) : String := location ++ "." ++ name

/-- The value of a field that is given: the options it makes, or what is wrong with it. -/
def readField (location : String) (o : Options) (f : Field) (j : Json) : Reading Options :=
  let named (set : List String → Options) : Reading Options :=
    match j with
    | .array items =>
      let (names, bad) := readNames 0 items
      ⟨set names, bad.map fun i => inside location i.repr⟩
    | _            => ⟨o, [location]⟩
  match f with
  | .flag f       => match readFlag? j with
    | some b => ⟨o.set (.flag f b), []⟩
    | none   => ⟨o, [location]⟩
  | .integer f    => match readInteger? j with
    | some n => ⟨o.set (.integer f n), []⟩
    | none   => ⟨o, [location]⟩
  | .float f      => match readFloat? j with
    | some x => ⟨o.set (.float f x), []⟩
    | none   => ⟨o, [location]⟩
  | .types        => named o.withTypes
  | .instructions => named o.withInstructions

/-- One member of the options: a field that is given, one that is null and so is not, or no field at all. -/
def readOption (location : String) (r : Reading Options) (member : String × Json) : Reading Options :=
  let here := inside location member.1
  match Field.all.find? (·.label == member.1), member.2 with
  | none,   _     => { r with invalid := here :: r.invalid }
  | some _, .null => r
  | some f, j     =>
    let read := readField here r.value f j
    ⟨read.value, read.invalid ++ r.invalid⟩

/-- Options in a document; null is the same as none. -/
def readOptions (location : String) : Json → Reading Options
  | .null       => ⟨{}, []⟩
  | .object ms  => ms.foldl (readOption location) ⟨{}, []⟩
  | _           => ⟨{}, [location]⟩

/-- A text that has to be there, unless a default stands in. -/
def readText (location : String) (default : Option String) : Option Json → Reading String
  | some (.string s) => ⟨s, []⟩
  | some _           => ⟨"", [location]⟩
  | none             =>
    match default with
    | some s => ⟨s, []⟩
    | none   => ⟨"", [location]⟩

end Service
end PushMachine
