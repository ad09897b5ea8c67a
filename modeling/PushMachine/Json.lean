import PushMachine.Number.FloatText
import PushMachine.Text.Quoted
/-!
# JSON documents

The documents the command line prints and the service exchanges.  Numbers keep the difference between an integer and a
float.  A document is printed over several lines with two spaces per level, members in the order given, and everything
beyond ASCII escaped.
-/
namespace PushMachine

inductive Json where
  | null
  | boolean (b : Bool)
  | integer (n : Int)
  | float (x : Float)
  | string (s : String)
  | array (items : List Json)
  | object (members : List (String × Json))

namespace Json

instance : Inhabited Json := ⟨.null⟩

/-! ## Strings -/

def hexEscape (n : Nat) : List Char := Text.backslash :: 'u' :: Text.hexDigits 4 n

/-- A character inside a JSON string; one beyond the first plane is a pair of escapes. -/
def escapeChar (c : Char) : List Char :=
  let n := c.toNat
  if c = Text.quotationMark || c = Text.backslash then [Text.backslash, c]
  else if n = 0xA then [Text.backslash, 'n']
  else if n = 0xD then [Text.backslash, 'r']
  else if n = 0x9 then [Text.backslash, 't']
  else if n = 0x8 then [Text.backslash, 'b']
  else if n = 0xC then [Text.backslash, 'f']
  else if 0x20 ≤ n && n ≤ 0x7E then [c]
  else if n < 0x10000 then hexEscape n
  else hexEscape (0xD800 + (n - 0x10000) / 0x400) ++ hexEscape (0xDC00 + (n - 0x10000) % 0x400)

def stringText (s : String) : String :=
  String.ofList (Text.quotationMark :: s.toList.flatMap escapeChar ++ [Text.quotationMark])

/-! ## Numbers -/

/-- A float; the three that are no numbers of JSON are written as words all the same. -/
def floatText (x : Float) : String :=
  if Number.isNan x then "NaN"
  else if Number.isFinite x then Number.floatText x
  else if Number.isNegative x then "-Infinity"
  else "Infinity"

def integerText (n : Int) : String := if n < 0 then "-" ++ n.natAbs.repr else n.natAbs.repr

/-! ## Documents -/

/-- A line break and the indentation of a level. -/
def newline (level : Nat) : String := "\n" ++ String.ofList (List.replicate (2 * level) ' ')

mutual

def textAt (level : Nat) : Json → String
  | .null       => "null"
  | .boolean b  => if b then "true" else "false"
  | .integer n  => integerText n
  | .float x    => floatText x
  | .string s   => stringText s
  | .array []   => "[]"
  | .array (x :: xs)  =>
    "[" ++ newline (level + 1) ++ textAt (level + 1) x ++ itemsAt (level + 1) xs ++ newline level ++ "]"
  | .object []  => "\x7b\x7d"
  | .object ((k, v) :: ms) =>
    "\x7b" ++ newline (level + 1) ++ stringText k ++ ": " ++ textAt (level + 1) v ++ membersAt (level + 1) ms
      ++ newline level ++ "\x7d"

def itemsAt (level : Nat) : List Json → String
  | []      => ""
  | x :: xs => "," ++ newline level ++ textAt level x ++ itemsAt level xs

def membersAt (level : Nat) : List (String × Json) → String
  | []           => ""
  | (k, v) :: ms => "," ++ newline level ++ stringText k ++ ": " ++ textAt level v ++ membersAt level ms

end

/-- **The text of a document.** -/
def text (j : Json) : String := textAt 0 j

/-- The value of a member of an object; of several members of one name the last counts. -/
def member? (name : String) (members : List (String × Json)) : Option Json :=
  (members.reverse.find? (·.1 == name)).map (·.2)

end Json
end PushMachine
