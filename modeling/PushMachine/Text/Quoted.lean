import PushMachine.Text.Printable
/-!
# Quoted text

How a message shows a text: between apostrophes, or between quotation marks when it holds an apostrophe and no
quotation mark.  The delimiter, the backslash, tab, line feed and carriage return are escaped by a letter or
themselves; any other character that is not printable is shown as its code point in hexadecimal, with as few of 2, 4
or 8 digits as hold it.
-/
namespace PushMachine
namespace Text

def apostrophe : Char := Char.ofNat 0x27
def quotationMark : Char := Char.ofNat 0x22
def backslash : Char := Char.ofNat 0x5C

/-- The last `width` hexadecimal digits of a number. -/
def hexDigits (width n : Nat) : List Char :=
  let ds := Nat.toDigits 16 n
  List.replicate (width - ds.length) '0' ++ ds

def escapeChar (delimiter c : Char) : List Char :=
  if c = delimiter || c = backslash then [backslash, c]
  else if c = '\t' then [backslash, 't']
  else if c = '\n' then [backslash, 'n']
  else if c = '\r' then [backslash, 'r']
  else if isPrintable c then [c]
  else if c.toNat ≤ 0xFF then backslash :: 'x' :: hexDigits 2 c.toNat
  else if c.toNat ≤ 0xFFFF then backslash :: 'u' :: hexDigits 4 c.toNat
  else backslash :: 'U' :: hexDigits 8 c.toNat

/-- The delimiter chosen for a text. -/
def delimiterFor (cs : List Char) : Char :=
  if cs.contains apostrophe && !cs.contains quotationMark then quotationMark else apostrophe

def quotedChars (cs : List Char) : List Char :=
  let d := delimiterFor cs
  d :: cs.flatMap (escapeChar d) ++ [d]

/-- **A text as a message shows it.** -/
def quoted (s : String) : String := String.ofList (quotedChars s.toList)

end Text
end PushMachine
