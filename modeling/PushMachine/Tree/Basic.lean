import PushMachine.Fault
/-!
# Program trees

A program, and every piece of code a program handles, is a tree: a token, or a list of trees.  The number of its
points (tokens and lists together) is what the size limit of a machine bounds.

`points` walks the tree with a list of the trees still to visit, so that its depth costs no stack; `nodes` is the
plain recursion, and `points_eq_nodes` says they agree.  Everything else is stated through `points_atom`,
`points_list` and `pointsAll_cons`.
-/
namespace PushMachine

inductive Tree where
  | atom (token : String)
  | list (items : List Tree)

namespace Tree

instance : Inhabited Tree := ⟨.list []⟩

/-! ## Equality -/

mutual

def same : Tree → Tree → Bool
  | .atom a,  .atom b  => a == b
  | .list xs, .list ys => sameItems xs ys
  | _,        _        => false

def sameItems : List Tree → List Tree → Bool
  | [],      []      => true
  | x :: xs, y :: ys => same x y && sameItems xs ys
  | _,       _       => false

end

mutual

theorem same_iff : ∀ a b : Tree, same a b = true ↔ a = b
  | .atom a,  .atom b  => by simp [same]
  | .atom a,  .list ys => by simp [same]
  | .list xs, .atom b  => by simp [same]
  | .list xs, .list ys => by simp [same, sameItems_iff xs ys]

theorem sameItems_iff : ∀ xs ys : List Tree, sameItems xs ys = true ↔ xs = ys
  | [],      []      => by simp [sameItems]
  | [],      y :: ys => by simp [sameItems]
  | x :: xs, []      => by simp [sameItems]
  | x :: xs, y :: ys => by simp [sameItems, same_iff x y, sameItems_iff xs ys]

end

instance : DecidableEq Tree := fun a b => decidable_of_iff (same a b = true) (same_iff a b)

/-! ## Points -/

mutual

/-- The number of points, by recursion on the tree. -/
def nodes : Tree → Nat
  | .atom _   => 1
  | .list ts  => 1 + nodesAll ts

def nodesAll : List Tree → Nat
  | []      => 0
  | t :: ts => nodes t + nodesAll ts

end

theorem nodesAll_append : ∀ xs ys : List Tree, nodesAll (xs ++ ys) = nodesAll xs + nodesAll ys
  | [],      ys => by simp [nodesAll]
  | x :: xs, ys => by simp [nodesAll, nodesAll_append xs ys, Nat.add_assoc]

theorem nodes_pos (t : Tree) : 0 < nodes t := by
  cases t with
  | atom _  => simp [nodes]
  | list ts => rw [nodes]; omega

/-- Add the points of the trees still to visit to `total`. -/
def pointsFrom (total : Nat) : List Tree → Nat
  | []              => total
  | .atom _ :: ts   => pointsFrom (total + 1) ts
  | .list us :: ts  => pointsFrom (total + 1) (us ++ ts)
termination_by ts => nodesAll ts
decreasing_by
  · simp [nodesAll, nodes]
  · simp [nodesAll, nodes, nodesAll_append]

/-- **The number of points of a tree**: one for a token, one more than its items' for a list. -/
def points (t : Tree) : Nat := pointsFrom 0 [t]

theorem pointsFrom_eq (total : Nat) (ts : List Tree) : pointsFrom total ts = total + nodesAll ts := by
  fun_induction pointsFrom total ts with
  | case1 => simp [nodesAll]
  | case2 total ts _ ih => rw [ih]; simp [nodesAll, nodes]; omega
  | case3 total ts us ih => rw [ih]; simp [nodesAll, nodes, nodesAll_append]; omega

theorem points_eq_nodes (t : Tree) : points t = nodes t := by
  simp [points, pointsFrom_eq, nodesAll]

/-- The points of several trees together. -/
def pointsAll (ts : List Tree) : Nat := pointsFrom 0 ts

@[simp] theorem pointsAll_nil : pointsAll [] = 0 := by simp [pointsAll, pointsFrom_eq, nodesAll]

@[simp] theorem pointsAll_cons (t : Tree) (ts : List Tree) : pointsAll (t :: ts) = points t + pointsAll ts := by
  simp [pointsAll, pointsFrom_eq, nodesAll, points_eq_nodes]

@[simp] theorem points_atom (token : String) : points (.atom token) = 1 := by
  simp [points_eq_nodes, nodes]

@[simp] theorem points_list (ts : List Tree) : points (.list ts) = 1 + pointsAll ts := by
  simp [points_eq_nodes, nodes, pointsAll, pointsFrom_eq]

theorem points_pos (t : Tree) : 0 < points t := by
  rw [points_eq_nodes]; exact nodes_pos t

theorem pointsAll_append (ts us : List Tree) : pointsAll (ts ++ us) = pointsAll ts + pointsAll us := by
  simp [pointsAll, pointsFrom_eq, nodesAll_append]

/-- The order of trees does not matter to their points. -/
theorem pointsAll_perm {ts us : List Tree} (h : ts.Perm us) : pointsAll ts = pointsAll us := by
  induction h with
  | nil => rfl
  | cons t _ ih => rw [pointsAll_cons, pointsAll_cons, ih]
  | swap t u ts => simp only [pointsAll_cons]; omega
  | trans _ _ ih₁ ih₂ => rw [ih₁, ih₂]

theorem points_le_of_mem {t : Tree} : ∀ {ts : List Tree}, t ∈ ts → points t ≤ pointsAll ts
  | u :: us, h => by
    rw [pointsAll_cons]
    rcases List.mem_cons.1 h with rfl | h
    · omega
    · have := points_le_of_mem h
      omega

/-! ## Lists

Where an instruction needs a list, a token stands for the list that holds only it. -/

/-- The items of a tree seen as a list. -/
def items : Tree → List Tree
  | .atom token => [.atom token]
  | .list ts    => ts

def asList (t : Tree) : Tree := .list t.items

def isAtom : Tree → Bool
  | .atom _ => true
  | .list _ => false

end Tree
end PushMachine
