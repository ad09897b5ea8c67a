import PushMachine.Number.Decimal
/-!
# Numbers in request bodies

A request may write a number as a text, and an integer as a float.  The rules are not those of configuration files:
digits are ASCII only, but an integer may have any number of zeros in front of it and a fraction of zeros behind it, and
underscores may stand next to more than digits.
-/
namespace PushMachine
namespace Service

/-- Remove underscores, none of which may be first, last or next to another. -/
def joinUnderscores? (cs : List Char) : Option (List Char) :=
  if cs.head? == some '_' || cs.getLast? == some '_' || (cs.zip cs.tail).contains ('_', '_') then none
  else some (cs.filter (· != '_'))

/-! ## Integers -/

/-- The sign in front, whether it is a minus, and the rest.  A plus says nothing, and no minus may follow it. -/
def leadingSign? : List Char → Option (Bool × List Char)
  | '+' :: '-' :: _ => none
  | '+' :: cs       => some (false, cs)
  | '-' :: cs       => some (true, cs)
  | cs              => some (false, cs)

/-- What follows zeros, the `last` of which has been read: more zeros and underscores are passed over, and a number,
with a minus even here, starts behind them.  Where none does, before a point or at the end, the last one stays. -/
def afterZeros? (last : Char) : List Char → Option (List Char)
  | []      => some [last]
  | c :: cs =>
    if c = '0' ∨ c = '_' then afterZeros? c cs
    else if c = '.' then some (last :: c :: cs)
    else if c = '-' ∨ c.isDigit then some (c :: cs)
    else none

/-- Drop the zeros in front of a number. -/
def dropZeros? : List Char → Option (List Char)
  | []      => none
  | c :: cs => if c = '0' then afterZeros? c cs else if c = '-' ∨ c.isDigit then some (c :: cs) else none

/-- Drop a point and the zeros behind it, one or more; any other fraction is refused. -/
def dropFraction? (cs : List Char) : Option (List Char) :=
  match cs.dropWhile (· != '.') with
  | []            => some cs
  | [_]           => none
  | _ :: fraction => if fraction.all (· == '0') then some (cs.takeWhile (· != '.')) else none

/-- A minus or nothing, then digits, with no zero before another.  The limit on digits counts the minus. -/
def signed? (cs : List Char) : Option Int :=
  let (negative, ds) := Number.cutSign cs
  if Number.allDigits ds && (ds.head? != some '0' || ds.length == 1) && cs.length ≤ Number.digitLimit then
    some (if negative then -(Number.digitsValue ds : Int) else Number.digitsValue ds)
  else none

/-- **The integer that a text holds.**  Zeros are dropped behind a sign in front, and underscores last of all. -/
def integerInText? (s : String) : Option Int := do
  let (negative, cs) ← leadingSign? (Text.trimSpaces s.toList)
  let cs ← dropZeros? cs
  let cs ← dropFraction? cs
  let cs ← joinUnderscores? (if negative then '-' :: cs else cs)
  signed? cs

/-- A whole float below two to the power 63 in magnitude is an integer. -/
def integerOfFloat? (x : Float) : Option Int :=
  if Number.isWhole x && (Number.truncate x).natAbs < 0x8000000000000000 then some (Number.truncate x) else none

/-! ## Floats -/

/-- **The float that a text holds.**  It may have spaces around it or underscores inside it, next to a point or an
exponent mark too, but not both. -/
def floatInText? (s : String) : Option Float :=
  match Number.readFloat? (Text.trimSpaces s.toList) with
  | some x => some x
  | none   => (joinUnderscores? s.toList).bind Number.readFloat?

end Service
end PushMachine
