import PushMachine.Text.Quoted
/-!
# Faults

What goes wrong with a value itself, rather than with the shape of a program: these end an operation wherever they
arise, and nothing inside the machine recovers from them.  An instruction whose precondition fails is no fault; it
does nothing.
-/
namespace PushMachine

inductive Fault where
  /-- An atom needs a token. -/
  | emptyToken
  /-- A token holds a blank or a parenthesis. -/
  | invalidToken (text : String)
  /-- An integer literal has more digits than are read. -/
  | tooManyDigits (count : Nat)
  /-- A word looks like an infinity and is spelled with an i that is none. -/
  | unreadableFloat (text : String)
  /-- No finite float is near the integer. -/
  | integerTooLarge
  /-- An integer has more digits than are written. -/
  | integerTooLong
  /-- There is nothing to draw from. -/
  | emptyRange
  /-- Every name drawn was taken. -/
  | namesExhausted
  deriving DecidableEq, Repr

/-- The wording of a fault. -/
def Fault.message : Fault → String
  | .emptyToken           => "an atom must hold a non-empty token"
  | .invalidToken text    => "invalid atom token: " ++ Text.quoted text
  | .tooManyDigits count  =>
    "Exceeds the limit (4300 digits) for integer string conversion: value has " ++ count.repr
      ++ " digits; use sys.set_int_max_str_digits() to increase the limit"
  | .unreadableFloat text => "could not convert string to float: " ++ Text.quoted text
  | .integerTooLarge      => "int too large to convert to float"
  | .integerTooLong       =>
    "Exceeds the limit (4300 digits) for integer string conversion; use sys.set_int_max_str_digits() to increase the limit"
  | .emptyRange           => "empty range for randrange()"
  | .namesExhausted       => "no unused name was found"

end PushMachine
