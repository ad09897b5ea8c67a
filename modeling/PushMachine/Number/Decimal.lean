import PushMachine.Number.Binary
import PushMachine.Text.Blank
import PushMachine.Text.Digit
/-!
# Reading numbers

The grammar of integers and floats in programs is plain: an optional sign and ASCII digits, with a point and an
exponent for floats.  Settings are read more freely, with spaces around the number, decimal digits of any script and
single underscores between digits; that is a step before the same grammar.
-/
namespace PushMachine
namespace Number

/-- A sign, and whether it was a minus. -/
def cutSign : List Char → Bool × List Char
  | '-' :: cs => (true, cs)
  | '+' :: cs => (false, cs)
  | cs        => (false, cs)

def digitsValue (cs : List Char) : Nat := Nat.ofDigitChars 10 cs 0

/-- One or more ASCII digits. -/
def allDigits (cs : List Char) : Bool := !cs.isEmpty && cs.all Char.isDigit

/-- Integers of more digits than this are neither read nor written. -/
def digitLimit : Nat := 4300

/-- Whether an integer has few enough digits to be written. -/
def isWritable (n : Int) : Bool := (Nat.toDigits 10 n.natAbs).length ≤ digitLimit

inductive IntegerReading where
  | none
  | tooLong (digits : Nat)
  | value (n : Int)
  deriving DecidableEq, Repr

/-- **An optional sign and one or more digits.** -/
def readInteger (cs : List Char) : IntegerReading :=
  let (negative, ds) := cutSign cs
  if !allDigits ds then .none
  else if digitLimit < ds.length then .tooLong ds.length
  else .value (if negative then -(digitsValue ds : Int) else digitsValue ds)

/-! ## Floats -/

/-- The number `digits * 10 ^ exponent`, with a sign of its own so that zero has one. -/
structure Decimal where
  negative : Bool
  digits   : Nat
  exponent : Int
  deriving DecidableEq, Repr

/-- An exponent mark, an optional sign and one or more digits; nothing is the exponent zero. -/
def readExponent? : List Char → Option Int
  | []      => some 0
  | c :: cs =>
    let (negative, ds) := cutSign cs
    if (c = 'e' || c = 'E') && allDigits ds then some (if negative then -(digitsValue ds : Int) else digitsValue ds)
    else none

/-- The digits before the point, those after it, and the rest. -/
def cutPoint (cs : List Char) : List Char × List Char × List Char :=
  match cs.dropWhile Char.isDigit with
  | '.' :: r => (cs.takeWhile Char.isDigit, r.takeWhile Char.isDigit, r.dropWhile Char.isDigit)
  | r        => (cs.takeWhile Char.isDigit, [], r)

/-- Digits with at most one point and at least one digit, then an exponent. -/
def readDecimal? (negative : Bool) (cs : List Char) : Option Decimal :=
  let (whole, fraction, rest) := cutPoint cs
  if whole.isEmpty && fraction.isEmpty then none
  else (readExponent? rest).map fun e => ⟨negative, digitsValue (whole ++ fraction), e - fraction.length⟩

/-- **The float nearest to a decimal.**  Exponents that only infinity or zero can answer are answered before any power
is taken: ten to the power 400 is beyond every float, and ten is more than two to the power three. -/
def Decimal.toFloat (d : Decimal) : Float :=
  if d.digits = 0 then zero d.negative
  else if 400 < d.exponent then infinity d.negative
  else if d.digits.log2 + 1 + 3 * d.exponent < -1100 then zero d.negative
  else if 0 ≤ d.exponent then ofMagnitude d.negative (nearestBits (d.digits * Nat.pow 10 d.exponent.toNat) 1)
  else ofMagnitude d.negative (nearestBits d.digits (Nat.pow 10 (-d.exponent).toNat))

/-- The words for the numbers that have no digits. -/
def readWord? (negative : Bool) (cs : List Char) : Option Float :=
  let word := cs.map Char.toLower
  if word = ['i', 'n', 'f'] ∨ word = ['i', 'n', 'f', 'i', 'n', 'i', 't', 'y'] then some (infinity negative)
  else if word = ['n', 'a', 'n'] then some nan
  else none

/-- **An optional sign, then digits or one of the words.** -/
def readFloat? (cs : List Char) : Option Float :=
  let (negative, rest) := cutSign cs
  match readDecimal? negative rest with
  | some d => some d.toFloat
  | none   => readWord? negative rest

/-! ## Settings -/

/-- Remove underscores, each of which has to stand between two digits; `last` is the character before. -/
def joinGroups? : Char → List Char → Option (List Char)
  | _,    []        => some []
  | last, '_' :: cs => match cs with
    | c :: _ => if last.isDigit && c.isDigit then joinGroups? '_' cs else none
    | []     => none
  | _,    c :: cs   => (joinGroups? c cs).map (c :: ·)

/-- What a setting says once spaces, scripts and underscores are out of the way. -/
def plainNumber? (cs : List Char) : Option (List Char) :=
  joinGroups? ' ' ((Text.trimSpaces cs).map Text.toAsciiDigit)

def settingInteger? (cs : List Char) : Option Int :=
  match (plainNumber? cs).map readInteger with
  | some (.value n) => some n
  | _               => none

def settingFloat? (cs : List Char) : Option Float := (plainNumber? cs).bind readFloat?

end Number
end PushMachine
