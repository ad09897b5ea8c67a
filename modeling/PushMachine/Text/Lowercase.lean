import PushMachine.Text.Blank
import PushMachine.Text.Lowercase.Table
/-!
# Lower case

Names, instruction references and configuration keys are compared without case, by the full lower-case mapping of
Unicode 14.  Two characters need more than a table row: the dotted capital I becomes two characters, and a capital
sigma becomes the final form at the end of a word.
-/
namespace PushMachine
namespace Text

def capitalSigma : Char := 'Σ'

def isCased (c : Char) : Bool := inRanges casedRanges c.toNat

/-- Skipped when the neighbours of a capital sigma are looked at. -/
def isIgnorable (c : Char) : Bool := inRanges ignorableRanges c.toNat

/-- A capital sigma ends a word when the nearest character before it that is not skipped is cased and the nearest one
after it is not.  `before` is read from the sigma outwards. -/
def endsWord (before after : List Char) : Bool :=
  match before.dropWhile isIgnorable with
  | []     => false
  | c :: _ => isCased c && match after.dropWhile isIgnorable with
    | []     => true
    | d :: _ => !isCased d

def CaseRow.covers (r : CaseRow) (n : Nat) : Bool :=
  r.first ≤ n && n ≤ r.last && (n - r.first) % r.stride == 0

/-- The lower case of one character, where its neighbours do not matter. -/
def lowerChar (c : Char) : List Char :=
  if c.toNat < 0x80 then [c.toLower]
  else if c.toNat = 0x130 then ['i', Char.ofNat 0x307]
  else match caseRows.find? (·.covers c.toNat) with
    | some r => [Char.ofNat (c.toNat + r.shift).toNat]
    | none   => [c]

/-- Lower-case the rest of a text whose characters before it, nearest first, are `before`. -/
def lowerFrom : List Char → List Char → List Char
  | _,      []      => []
  | before, c :: cs =>
    (if c = capitalSigma then [if endsWord before cs then 'ς' else 'σ'] else lowerChar c)
      ++ lowerFrom (c :: before) cs

def lowerChars (cs : List Char) : List Char := lowerFrom [] cs

/-- **The lower case of a text.** -/
def lower (s : String) : String := String.ofList (lowerChars s.toList)

end Text
end PushMachine
