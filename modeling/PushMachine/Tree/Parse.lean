import PushMachine.Tree.Scan
/-!
# From text to tree

Lists may be nested to any depth, so the lists still open are kept on a stack of their own.  One item at the top level
is the program itself; any other number of items is the list of them.
-/
namespace PushMachine

inductive ParseError where
  /-- A closing parenthesis with nothing to close. -/
  | unexpectedClose (offset : Nat)
  /-- The innermost list that is still open at the end. -/
  | unclosedOpen (offset : Nat)
  deriving DecidableEq, Repr

namespace ParseError

def offset : ParseError → Nat
  | .unexpectedClose n => n
  | .unclosedOpen n    => n

def message : ParseError → String
  | .unexpectedClose n => "unexpected ')' at offset " ++ n.repr
  | .unclosedOpen n    => "unclosed '(' at offset " ++ n.repr

end ParseError

namespace Tree

/-- The top-level items as one program. -/
def ofItems : List Tree → Tree
  | [t] => t
  | ts  => .list ts

/-- A list that is still open around the current one: where it opened its inner list, and its own items so far, last
first. -/
structure Frame where
  opened : Nat
  items  : List Tree

/-- Read the remaining lexemes.  `done` holds the items of the innermost open list, last first. -/
def build : List Frame → List Tree → List Lexeme → Except ParseError Tree
  | [],     done, []      => .ok (ofItems done.reverse)
  | f :: _, _,    []      => .error (.unclosedOpen f.opened)
  | frames, done, l :: ls =>
    if l.text = "(" then build (⟨l.offset, done⟩ :: frames) [] ls
    else if l.text = ")" then
      match frames with
      | []      => .error (.unexpectedClose l.offset)
      | f :: fs => build fs (.list done.reverse :: f.items) ls
    else build frames (.atom l.text :: done) ls

/-- **The tree of a program text.** -/
def parse (text : String) : Except ParseError Tree := build [] [] (Lexeme.scan text)

end Tree
end PushMachine
