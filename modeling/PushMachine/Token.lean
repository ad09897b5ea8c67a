import PushMachine.Number.Decimal
import PushMachine.Number.Int64
import PushMachine.Text.Lowercase
import PushMachine.Fault
/-!
# What a token means

A token is classified when it is executed, by the first of these that fits: an integer of the signed 64-bit range, a
float, a boolean, a reference to an instruction (anything with a point), a name.  References and names are
lower-cased; the two halves of a reference are lower-cased apart.
-/
namespace PushMachine

inductive Token where
  | integer (value : Int)
  | float (value : Float)
  | boolean (value : Bool)
  | instruction (stack operation : String)
  | name (text : String)

namespace Token

/-- An integer literal, if the text is one. -/
def integer? (text : String) : Except Fault (Option Int) :=
  match Number.readInteger text.toList with
  | .none      => .ok none
  | .tooLong n => .error (.tooManyDigits n)
  | .value n   => .ok (if Number.inInt64 n then some n else none)

/-- The dotted capital I and the dotless small i, which pass for an i where case is ignored. -/
def isOddI (c : Char) : Bool := c.toNat == 0x130 || c.toNat == 0x131

/-- Whether the text would be a word for a number if every odd i were a plain one. -/
def isOddWord (cs : List Char) : Bool :=
  cs.any isOddI && (Number.readWord? false ((Number.cutSign cs).2.map fun c => if isOddI c then 'i' else c)).isSome

/-- A float literal, if the text is one. -/
def float? (text : String) : Except Fault (Option Float) :=
  if isOddWord text.toList then .error (.unreadableFloat text)
  else .ok (Number.readFloat? text.toList)

/-- A boolean literal, if the text is one. -/
def boolean? (text : String) : Option Bool :=
  if Text.lower text = "true" then some true
  else if Text.lower text = "false" then some false
  else none

/-- The text before the first point and the text after it. -/
def cutAtPoint (cs : List Char) : Option (List Char × List Char) :=
  match cs.dropWhile (· != '.') with
  | []        => none
  | _ :: rest => some (cs.takeWhile (· != '.'), rest)

/-- A reference to an instruction, or a name. -/
def symbol (text : String) : Token :=
  match cutAtPoint text.toList with
  | some (stack, operation) =>
    .instruction (String.ofList (Text.lowerChars stack)) (String.ofList (Text.lowerChars operation))
  | none => .name (Text.lower text)

/-- **What a token means.** -/
def classify (text : String) : Except Fault Token :=
  match integer? text with
  | .error f     => .error f
  | .ok (some n) => .ok (.integer n)
  | .ok none     =>
    match float? text with
    | .error f     => .error f
    | .ok (some x) => .ok (.float x)
    | .ok none     =>
      match boolean? text with
      | some b => .ok (.boolean b)
      | none   => .ok (symbol text)

end Token
end PushMachine
