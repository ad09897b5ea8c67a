import PushMachine.Tree.Basic
import PushMachine.Text.Lowercase
/-!
# Bindings

The definitions of a machine: trees bound to lower-cased names, in the order in which the names were first bound.
Binding a name again keeps its place; nothing is ever unbound.
-/
namespace PushMachine

@[ext]
structure Bindings where
  entries : List (String × Tree) := []
  /-- No name is bound twice. -/
  nodup   : (entries.map (·.1)).Nodup := by exact List.nodup_nil

namespace Bindings

/-- The names in the order of their first binding. -/
def names (b : Bindings) : List String := b.entries.map (·.1)

/-- The tree bound to a key that is lower-cased already. -/
def find? (key : String) : List (String × Tree) → Option Tree
  | []              => none
  | (k, t) :: rest  => if k = key then some t else find? key rest

/-- Replace the tree of a key, or add the key at the end. -/
def put (key : String) (tree : Tree) : List (String × Tree) → List (String × Tree)
  | []              => [(key, tree)]
  | (k, t) :: rest  => if k = key then (k, tree) :: rest else (k, t) :: put key tree rest

/-- Binding keeps the keys and their order, and adds at most the new one at the end. -/
theorem map_fst_put (key : String) (tree : Tree) : ∀ es : List (String × Tree),
    (put key tree es).map (·.1) = if key ∈ es.map (·.1) then es.map (·.1) else es.map (·.1) ++ [key]
  | []           => by simp [put]
  | (k, t) :: es => by
    have ih := map_fst_put key tree es
    by_cases h : k = key
    · simp [put, h]
    · simp only [put, h, if_false, List.map_cons, List.mem_cons, Ne.symm h, false_or, ih]
      split <;> rfl

theorem nodup_put {key : String} {tree : Tree} {es : List (String × Tree)} (h : (es.map (·.1)).Nodup) :
    ((put key tree es).map (·.1)).Nodup := by
  rw [map_fst_put]
  split
  · exact h
  · rename_i hnew
    exact List.nodup_append.2 ⟨h, by simp, fun x hx y hy he => by
      rw [List.mem_singleton.1 hy] at he
      exact hnew (he ▸ hx)⟩

/-- The tree bound to a name, in any case. -/
def lookup (b : Bindings) (name : String) : Option Tree := find? (Text.lower name) b.entries

def contains (b : Bindings) (name : String) : Bool := (b.lookup name).isSome

/-- **Bind a name, in any case.** -/
def bind (b : Bindings) (name : String) (tree : Tree) : Bindings where
  entries := put (Text.lower name) tree b.entries
  nodup   := nodup_put b.nodup

def size (b : Bindings) : Nat := b.entries.length

theorem length_names (b : Bindings) : b.names.length = b.size := List.length_map _

/-! ## Looking up what was bound -/

theorem find?_put_self (key : String) (tree : Tree) :
    ∀ es : List (String × Tree), find? key (put key tree es) = some tree
  | []           => by simp [put, find?]
  | (k, t) :: es => by
    by_cases h : k = key
    · simp [put, find?, h]
    · simp [put, find?, h, find?_put_self key tree es]

theorem find?_put_of_ne {key key' : String} (hne : key' ≠ key) (tree : Tree) :
    ∀ es : List (String × Tree), find? key' (put key tree es) = find? key' es
  | []           => by simp [put, find?, Ne.symm hne]
  | (k, t) :: es => by
    by_cases h : k = key
    · subst h; simp [put, find?, Ne.symm hne]
    · simp [put, find?, h, find?_put_of_ne hne tree es]

theorem lookup_bind_self {name name' : String} (h : Text.lower name' = Text.lower name) (b : Bindings)
    (tree : Tree) : (b.bind name tree).lookup name' = some tree := by
  simp [bind, lookup, h, find?_put_self]

theorem lookup_bind_of_ne {name name' : String} (h : Text.lower name' ≠ Text.lower name) (b : Bindings)
    (tree : Tree) : (b.bind name tree).lookup name' = b.lookup name' := by
  simp [bind, lookup, find?_put_of_ne h]

theorem names_bind (b : Bindings) (name : String) (tree : Tree) :
    (b.bind name tree).names = if Text.lower name ∈ b.names then b.names else b.names ++ [Text.lower name] :=
  map_fst_put (Text.lower name) tree b.entries

theorem nodup_names (b : Bindings) : b.names.Nodup := b.nodup

end Bindings
end PushMachine
