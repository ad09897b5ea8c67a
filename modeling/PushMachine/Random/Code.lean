import PushMachine.Instruction.Basic
import PushMachine.Random.Supply
import PushMachine.Tree.Value
/-!
# Random code

A random tree of a given number of points is a token, or a list whose items' sizes are a random decomposition of what
the list itself leaves over, in random order.  A random token is an instruction or a random constant: all instructions
that are enabled and one constant for each enabled type are equally likely.
-/
namespace PushMachine
namespace RandomCode

variable {ρ : Type} [RandomSource ρ]

/-- The types that have random constants. -/
def constantKinds : List Kind := [.integer, .float, .boolean, .name]

/-- A random constant of a type. -/
def constant (o : Options) : Kind → Generator ρ Tree
  | .integer => do Generator.ofExcept (Tree.ofInteger (← Generator.draw (Draw.between o.minInteger o.maxInteger)))
  | .float   => Tree.ofFloat <$> Generator.draw (Draw.uniform o.minFloat o.maxFloat)
  | .boolean => Tree.ofBoolean <$> Generator.draw (Draw.chance 0.5)
  | _        => Tree.atom <$> Supply.anyName o.nameProbability

/-- **A random token.** -/
def atom (o : Options) : Generator ρ Tree :=
  let tokens := o.instructionTokens
  let kinds := constantKinds.filter o.enables
  if tokens.length + kinds.length = 0 then .fail .emptyRange
  else do
    let i ← Generator.draw (Draw.below (tokens.length + kinds.length))
    match tokens[i]? with
    | some token => return .atom token
    | none       => constant o (kinds.getD (i - tokens.length) .name)

/-- Split a number into positive parts, at most `maxParts` of them; less than two is not split. -/
def parts : Nat → Int → Generator ρ (List Int)
  | 0,            n => pure [n]
  | 1,            n => pure [n]
  | maxParts + 2, n =>
    if 1 < n then do
      let part ← Generator.draw (Draw.between 1 (n - 1))
      let rest ← parts (maxParts + 1) (n - part)
      return part :: rest
    else pure [n]

def decompose (number maxParts : Int) : Generator ρ (List Int) := parts maxParts.toNat number

/-- A tree of `size` points, for `size` at most `depth`. -/
def treeWithin (o : Options) : Nat → Int → Generator ρ Tree
  | 0,         _    => atom o
  | depth + 1, size =>
    if size ≤ 1 then atom o
    else do
      let sizes ← decompose (size - 1) (size - 1)
      let items ← sizes.mapM (treeWithin o depth)
      let shuffled ← Generator.draw (Draw.shuffle items)
      return .list shuffled

/-- **A random tree of exactly `size` points**, or one point if that is more. -/
def ofSize (o : Options) (size : Int) : Generator ρ Tree := treeWithin o size.toNat size

/-- **A random tree of at most `maxPoints` points**, or one point if that is more. -/
def upTo (o : Options) (maxPoints : Int) : Generator ρ Tree := do
  let size ← Generator.draw (Draw.between 1 (max 1 maxPoints))
  ofSize o size

end RandomCode
end PushMachine
