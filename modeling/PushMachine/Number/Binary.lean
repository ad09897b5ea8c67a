/-!
# Binary floating point in exact arithmetic

A float is decoded into a sign and a magnitude, and the magnitude into `mantissa * 2 ^ exponent`.  Everything that has
to be exact (reading and writing decimals, remainders, conversions from and to integers) is done on these numbers, in
`Nat` and `Int`.  The 63 magnitude bits of the encoding are `(exponent + 1074) * 2 ^ 52 + mantissa` for every finite
magnitude, subnormal ones included, so they are ordered as the magnitudes are, and a mantissa rounded up to `2 ^ 53`
needs no correction.
-/
namespace PushMachine
namespace Number

/-- The leading bit of a mantissa of full length, `2 ^ 52`, which the encoding leaves out. -/
def hiddenBit : Nat := 0x10000000000000

/-- The bit of the encoding that holds the sign, `2 ^ 63`. -/
def signBit : Nat := 0x8000000000000000

/-- The magnitude bits of infinity: the least that encode no finite magnitude. -/
def infinityBits : Nat := 2047 * hiddenBit

/-- The exponent of the least subnormal number, which is also the finest unit there is. -/
def leastExponent : Int := -1074

def isNegative (x : Float) : Bool := x.toBits.toNat / signBit == 1

/-- The encoding without its sign. -/
def magnitudeBits (x : Float) : Nat := x.toBits.toNat % signBit

/-- The float with a sign and magnitude bits. -/
def ofMagnitude (negative : Bool) (bits : Nat) : Float :=
  Float.ofBits (UInt64.ofNat (bits + if negative then signBit else 0))

def zero (negative : Bool) : Float := ofMagnitude negative 0
def infinity (negative : Bool) : Float := ofMagnitude negative infinityBits
def nan : Float := ofMagnitude false (infinityBits + hiddenBit / 2)

/-! ## Magnitudes -/

/-- The number `mantissa * 2 ^ exponent`. -/
structure Dyadic where
  mantissa : Nat
  exponent : Int
  deriving DecidableEq, Repr

/-- The magnitude that finite magnitude bits encode. -/
def Dyadic.ofBits (bits : Nat) : Dyadic :=
  if bits / hiddenBit = 0 then ⟨bits, leastExponent⟩
  else ⟨bits % hiddenBit + hiddenBit, (bits / hiddenBit : Nat) - 1 + leastExponent⟩

/-- The magnitude of a finite float. -/
def Dyadic.ofFloat (x : Float) : Dyadic := .ofBits (magnitudeBits x)

/-- Numerator and denominator of `num / den / 2 ^ e`. -/
def scaleDown (num den : Nat) (e : Int) : Nat × Nat :=
  if 0 ≤ e then (num, den * Nat.pow 2 e.toNat) else (num * Nat.pow 2 (-e).toNat, den)

/-- A dyadic number as a numerator and a denominator. -/
def Dyadic.ratio (d : Dyadic) : Nat × Nat := scaleDown d.mantissa 1 (-d.exponent)

/-! ## Rounding -/

/-- The integer nearest to `num / den`; of two equally near ones, the even one. -/
def roundDiv (num den : Nat) : Nat :=
  let q := num / den
  let r := num % den
  if 2 * r < den || (2 * r == den && q % 2 == 0) then q else q + 1

/-- The greatest `e` with `2 ^ e ≤ num / den`, for positive numbers. -/
def log2Ratio (num den : Nat) : Int :=
  let g : Int := (num.log2 : Int) - den.log2
  let (n, d) := scaleDown num den g
  if d ≤ n then g else g - 1

/-- **The magnitude bits nearest to `num / den`**, infinity included; of two equally near ones, the even one. -/
def nearestBits (num den : Nat) : Nat :=
  if num = 0 then 0 else
  let e := max leastExponent (log2Ratio num den - 52)
  let (n, d) := scaleDown num den e
  min infinityBits ((e - leastExponent).toNat * hiddenBit + roundDiv n d)

/-! ## Integers -/

/-- The float nearest to an integer, or nothing if the integer is beyond every finite float. -/
def floatOfInt? (n : Int) : Option Float :=
  let bits := nearestBits n.natAbs 1
  if bits = infinityBits then none else some (ofMagnitude (n < 0) bits)

/-- A finite float without its fraction. -/
def truncate (x : Float) : Int :=
  let (num, den) := (Dyadic.ofFloat x).ratio
  if isNegative x then -(num / den : Nat) else (num / den : Nat)

def isFinite (x : Float) : Bool := magnitudeBits x < infinityBits
def isNan (x : Float) : Bool := infinityBits < magnitudeBits x

/-- Whether a float is an integer. -/
def isWhole (x : Float) : Bool :=
  isFinite x && let (num, den) := (Dyadic.ofFloat x).ratio
  num % den == 0

/-! ## Remainders -/

/-- The remainder of a truncated division, exact, with the sign of the dividend; `b` is not zero. -/
def truncatedMod (a b : Float) : Float :=
  if isNan a || isNan b || !isFinite a then nan
  else if !isFinite b then a
  else
    let x := Dyadic.ofFloat a
    let y := Dyadic.ofFloat b
    let e := min x.exponent y.exponent
    let r := x.mantissa * Nat.pow 2 (x.exponent - e).toNat % (y.mantissa * Nat.pow 2 (y.exponent - e).toNat)
    let (num, den) := (Dyadic.mk r e).ratio
    ofMagnitude (isNegative a) (nearestBits num den)

/-- **The remainder with the sign of the divisor.**  A remainder of the other sign is moved by one divisor, in
floating point; a zero takes the divisor's sign. -/
def flooredMod (a b : Float) : Float :=
  let r := truncatedMod a b
  if r == 0.0 then zero (isNegative b)
  else if isNan r then r
  else if decide (b < 0.0) != decide (r < 0.0) then r + b
  else r

end Number
end PushMachine
