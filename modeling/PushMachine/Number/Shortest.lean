import PushMachine.Number.Binary
/-!
# The fewest digits that read back

The decimal written for a float is the one with the fewest digits among those that round to the float, and of these
the nearest to it.  Going through the grids of 1, 2, … 17 digits it is enough to try the two neighbours of the float
on each grid: if any point of a grid rounds to the float, one of these two does.
-/
namespace PushMachine
namespace Number

/-- Numerator and denominator of `num / den / 10 ^ e`. -/
def scaleDownTen (num den : Nat) (e : Int) : Nat × Nat :=
  if 0 ≤ e then (num, den * Nat.pow 10 e.toNat) else (num * Nat.pow 10 (-e).toNat, den)

/-- The greatest `e` with `10 ^ e ≤ num / den`, for positive numbers.  The binary logarithm leaves four candidates. -/
def log10Ratio (num den : Nat) : Int :=
  let least := ((log2Ratio num den) * 30103).fdiv 100000 - 1
  let reached (e : Int) : Bool := let (n, d) := scaleDownTen num den e; d ≤ n
  if reached (least + 3) then least + 3
  else if reached (least + 2) then least + 2
  else if reached (least + 1) then least + 1
  else least

/-- **The reals that round to a magnitude**, in quarters of its last binary place: from `low` to `high` quarters, the
ends included when the mantissa is even. -/
structure Interval where
  low    : Nat
  high   : Nat
  closed : Bool

/-- Below a power of two the neighbours lie half as far apart. -/
def Interval.around (d : Dyadic) : Interval where
  low    := 4 * d.mantissa - if d.mantissa = hiddenBit ∧ leastExponent < d.exponent then 1 else 2
  high   := 4 * d.mantissa + 2
  closed := d.mantissa % 2 == 0

/-- The point of the grid `10 ^ p` that rounds to `d`, if there is one; of two, the nearer, and of two equally near
ones the even one.  The result counts units of the grid. -/
def gridPoint? (d : Dyadic) (p : Int) : Option Nat :=
  let i := Interval.around d
  let (quarter, den₀) := (Dyadic.mk 1 (d.exponent - 2)).ratio
  let (scale, den) := scaleDownTen 1 den₀ p
  let value := 4 * d.mantissa * quarter * scale
  let low := i.low * quarter * scale
  let high := i.high * quarter * scale
  let below := value / den
  let above := below + 1
  let belowIn := if i.closed then low ≤ below * den else low < below * den
  let aboveIn := if i.closed then above * den ≤ high else above * den < high
  if belowIn && aboveIn then
    if 2 * value < (below + above) * den || (2 * value == (below + above) * den && below % 2 == 0) then some below
    else some above
  else if belowIn then some below
  else if aboveIn then some above
  else none

/-- The decimal `digits * 10 ^ exponent`. -/
structure Scaled where
  digits   : Nat
  exponent : Int
  deriving DecidableEq, Repr

/-- Try the grids of 1 to 17 digits in turn, for a positive magnitude.  Only a single nine can round up to a shorter
number, ten. -/
def shortest (d : Dyadic) : Scaled :=
  let (num, den) := d.ratio
  let e := log10Ratio num den
  let found := (List.range 17).findSome? fun (n : Nat) => (gridPoint? d (e - n)).map fun k => Scaled.mk k (e - n)
  match found with
  | some ⟨10, p⟩ => ⟨1, p + 1⟩
  | some s       => s
  | none         => ⟨0, 0⟩

end Number
end PushMachine
