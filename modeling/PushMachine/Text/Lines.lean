/-!
# Lines of a text

A text held in memory is broken at every line separator of Unicode; a file is broken at line feeds only.  Both first
make every carriage return, alone or before a line feed, into one line feed, so the two differ exactly in the
separators other than line feed.  A separator ends a line: nothing after the last one is no line.
-/
namespace PushMachine
namespace Text

/-- Carriage returns become line feeds; one before a line feed is dropped. -/
def unifyNewlines : List Char → List Char
  | []                  => []
  | '\r' :: '\n' :: cs  => '\n' :: unifyNewlines cs
  | c :: cs             => (if c = '\r' then '\n' else c) :: unifyNewlines cs

/-- Break after each character that `ends` a line; `line` is the line so far, last character first. -/
def breakFrom (ends : Char → Bool) : List Char → List Char → List (List Char)
  | [],   []      => []
  | line, []      => [line.reverse]
  | line, c :: cs => if ends c then line.reverse :: breakFrom ends [] cs else breakFrom ends (c :: line) cs

/-- Line feed, vertical tab, form feed, carriage return, the separators U+001C to U+001E, next line, and the line and
paragraph separators. -/
def isSeparator (c : Char) : Bool :=
  let n := c.toNat
  (0xA ≤ n && n ≤ 0xD) || (0x1C ≤ n && n ≤ 0x1E) || n == 0x85 || n == 0x2028 || n == 0x2029

/-- The lines of a text held in memory. -/
def lines (cs : List Char) : List (List Char) := breakFrom isSeparator [] (unifyNewlines cs)

/-- The lines of a file. -/
def fileLines (cs : List Char) : List (List Char) := breakFrom (· == '\n') [] (unifyNewlines cs)

end Text
end PushMachine
