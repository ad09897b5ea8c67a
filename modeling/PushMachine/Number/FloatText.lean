import PushMachine.Number.Shortest
/-!
# The text of a float

The shortest digits, laid out positionally with at least one place after the point, or with an exponent of at least
two digits when the number is very large or very small.
-/
namespace PushMachine
namespace Number

/-- Which decimal exponents are written positionally. -/
structure Layout where
  least : Int
  bound : Int

/-- Numbers from `10 ^ -4` up to `10 ^ 16` are written positionally. -/
def floatLayout : Layout := ⟨-4, 16⟩

/-- `digits * 10 ^ exponent` without an exponent. -/
def positional (digits : List Char) (exponent : Int) : List Char :=
  let whole := digits.length + exponent
  if 0 ≤ exponent then digits ++ List.replicate exponent.toNat '0' ++ ['.', '0']
  else if 0 < whole then digits.take whole.toNat ++ '.' :: digits.drop whole.toNat
  else '0' :: '.' :: List.replicate (-whole).toNat '0' ++ digits

/-- An exponent: its sign and at least two digits. -/
def exponentChars (e : Int) : List Char :=
  let ds := Nat.toDigits 10 e.natAbs
  (if e < 0 then '-' else '+') :: List.replicate (2 - ds.length) '0' ++ ds

/-- `digits * 10 ^ exponent` with one digit before the point, and no point after a single digit. -/
def scientific (digits : List Char) (exponent : Int) : List Char :=
  let e := digits.length - 1 + exponent
  match digits with
  | d :: ds@(_ :: _) => d :: '.' :: ds ++ 'e' :: exponentChars e
  | ds               => ds ++ 'e' :: exponentChars e

def Scaled.chars (s : Scaled) : List Char :=
  let ds := Nat.toDigits 10 s.digits
  let e := ds.length - 1 + s.exponent
  if floatLayout.least ≤ e ∧ e < floatLayout.bound then positional ds s.exponent else scientific ds s.exponent

/-- The text of a magnitude. -/
def magnitudeChars (bits : Nat) : List Char :=
  if bits = infinityBits then ['i', 'n', 'f']
  else if bits = 0 then ['0', '.', '0']
  else (shortest (.ofBits bits)).chars

/-- **The text of a float.**  A number that is none has no sign. -/
def floatChars (x : Float) : List Char :=
  if isNan x then ['n', 'a', 'n']
  else (if isNegative x then ['-'] else []) ++ magnitudeChars (magnitudeBits x)

def floatText (x : Float) : String := String.ofList (floatChars x)

end Number
end PushMachine
