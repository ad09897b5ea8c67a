/-!
# Blank characters

Two classes, one inside the other.  A space is a character with the Unicode property `White_Space`; spaces may stand
around a number.  A blank is a space or one of the four information separators U+001C to U+001F; blanks separate the
words of a program and are trimmed from a configuration line.  U+200B, U+180E and U+FEFF are neither, so they may stand
inside a word.
-/
namespace PushMachine
namespace Text

/-- The spaces, as closed ranges of code points. -/
def spaceRanges : List (Nat × Nat) :=
  [(0x9, 0xD), (0x20, 0x20), (0x85, 0x85), (0xA0, 0xA0), (0x1680, 0x1680), (0x2000, 0x200A), (0x2028, 0x2029),
    (0x202F, 0x202F), (0x205F, 0x205F), (0x3000, 0x3000)]

/-- The information separators, a closed range of code points. -/
def informationSeparators : Nat × Nat := (0x1C, 0x1F)

/-- Whether a code point lies in one of the given closed ranges. -/
def inRanges (ranges : List (Nat × Nat)) (n : Nat) : Bool :=
  ranges.any fun r => r.1 ≤ n && n ≤ r.2

def isSpace (c : Char) : Bool := inRanges spaceRanges c.toNat

def isBlank (c : Char) : Bool := inRanges (informationSeparators :: spaceRanges) c.toNat

/-! ## Trimming

Both ends at once is all the configuration format and the number readers ask for; the middle is never touched. -/

/-- Drop the characters of a class from both ends. -/
def trimBoth (p : Char → Bool) (cs : List Char) : List Char := ((cs.dropWhile p).reverse.dropWhile p).reverse

def trim (cs : List Char) : List Char := trimBoth isBlank cs

def trimSpaces (cs : List Char) : List Char := trimBoth isSpace cs

/-- The leading word and what follows the blanks after it. -/
def cutWord (cs : List Char) : List Char × List Char :=
  (cs.takeWhile (!isBlank ·), (cs.dropWhile (!isBlank ·)).dropWhile isBlank)

end Text
end PushMachine
