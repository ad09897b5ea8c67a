import PushMachine.Tree.Basic
/-!
# From tree to text

The canonical text of a tree: a token is itself, and a list is its items between parentheses, one space apart.  As for
`points`, what runs keeps the pieces still to write on a list of its own.
-/
namespace PushMachine
namespace Tree

/-- The work left to write: a tree, or the parenthesis that closes a list. -/
inductive Piece where
  | tree (t : Tree)
  | close

def Piece.weight : Piece → Nat
  | .tree t => 2 * t.nodes
  | .close  => 1

def weightAll : List Piece → Nat
  | []      => 0
  | p :: ps => p.weight + weightAll ps

theorem weightAll_append : ∀ ps qs : List Piece, weightAll (ps ++ qs) = weightAll ps + weightAll qs
  | [],      qs => by simp [weightAll]
  | p :: ps, qs => by simp [weightAll, weightAll_append ps qs, Nat.add_assoc]

theorem weightAll_map_tree : ∀ ts : List Tree, weightAll (ts.map .tree) = 2 * nodesAll ts
  | []      => rfl
  | t :: ts => by simp [weightAll, nodesAll, Piece.weight, weightAll_map_tree ts, Nat.mul_add]

/-- Write the pieces after `out`; `gap` says whether a space has to come before the next tree. -/
def textFrom (out : String) (gap : Bool) : List Piece → String
  | []                       => out
  | .close :: ps             => textFrom (out ++ ")") true ps
  | .tree (.atom token) :: ps => textFrom (if gap then out ++ " " ++ token else out ++ token) true ps
  | .tree (.list ts) :: ps   =>
    textFrom (if gap then out ++ " " ++ "(" else out ++ "(") false (ts.map .tree ++ .close :: ps)
termination_by ps => weightAll ps
decreasing_by
  · simp [weightAll, Piece.weight]
  · simp [weightAll, Piece.weight, nodes]
  · simp [weightAll, weightAll_append, weightAll_map_tree, Piece.weight, nodes]; omega

/-- **The canonical text of a tree.** -/
def text (t : Tree) : String := textFrom "" false [.tree t]

end Tree
end PushMachine
