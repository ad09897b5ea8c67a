import PushMachine.Tree.Basic
/-!
# Words and parentheses

A program text is a sequence of lexemes: each parenthesis by itself, and each longest run of characters that are
neither blank nor a parenthesis.  Offsets count characters from the start of the text.
-/
namespace PushMachine

/-- A word or a parenthesis, and where it starts. -/
structure Lexeme where
  text   : String
  offset : Nat
  deriving DecidableEq, Repr

namespace Lexeme

def isParenthesis (c : Char) : Bool := c == '(' || c == ')'

/-- What cannot stand inside a word. -/
def isDelimiter (c : Char) : Bool := Text.isBlank c || isParenthesis c

/-- The word that ends before `offset`, if there is one; its characters come last first. -/
def ofWord (offset : Nat) : List Char → List Lexeme
  | []   => []
  | word => [⟨String.ofList word.reverse, offset - word.length⟩]

/-- Scan from `offset` on, with the characters of the word under way, last first. -/
def scanFrom : Nat → List Char → List Char → List Lexeme
  | offset, word, []      => ofWord offset word
  | offset, word, c :: cs =>
    if Text.isBlank c then ofWord offset word ++ scanFrom (offset + 1) [] cs
    else if isParenthesis c then ofWord offset word ++ ⟨String.singleton c, offset⟩ :: scanFrom (offset + 1) [] cs
    else scanFrom (offset + 1) (c :: word) cs

/-- **The lexemes of a text.** -/
def scan (text : String) : List Lexeme := scanFrom 0 [] text.toList

end Lexeme

namespace Tree

/-- Whether a text can be the token of an atom. -/
def isToken (text : String) : Bool :=
  !text.isEmpty && text.toList.all (!Lexeme.isDelimiter ·)

/-- The atom with a given token, if it can be one. -/
def ofToken (text : String) : Except Fault Tree :=
  if text.isEmpty then .error .emptyToken
  else if isToken text then .ok (.atom text)
  else .error (.invalidToken text)

end Tree
end PushMachine
