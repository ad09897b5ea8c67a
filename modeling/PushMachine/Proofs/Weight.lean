import Mathlib.Algebra.GroupWithZero.Nat
import PushMachine.Proofs.Form
import PushMachine.Proofs.Stack
/-!
# How much a machine holds

A literal weighs one and a tree weighs its points; a machine weighs what is on its stacks and what its bindings hold.
`Machine.Bounded` says that nothing in a machine weighs more than a given size.  Replacing a stack changes the weight by
the difference of the two stacks (`weight_setStack`), so most of what follows about instructions is arithmetic.
-/
namespace PushMachine

variable {ρ : Type}

/-! ## Items and stacks -/

theorem Tree.pointsAll_eq_sum : ∀ ts : List Tree, pointsAll ts = (ts.map points).sum
  | []      => by simp
  | t :: ts => by simp [pointsAll_eq_sum ts]

namespace Kind

/-- What an item of a stack weighs. -/
def weight : (k : Kind) → k.Item → Nat
  | .exec, t => t.points
  | .code, t => t.points
  | _,     _ => 1

/-- What a stack weighs. -/
def weigh (k : Kind) (xs : Stack k.Item) : Nat := (xs.map k.weight).sum

variable {k : Kind}

@[simp] theorem weigh_nil : k.weigh [] = 0 := rfl

@[simp] theorem weigh_cons (x : k.Item) (xs : Stack k.Item) : k.weigh (x :: xs) = k.weight x + k.weigh xs := by
  simp [weigh]

theorem weigh_perm {xs ys : Stack k.Item} (h : xs.Perm ys) : k.weigh xs = k.weigh ys := (h.map k.weight).sum_nat

theorem weigh_exec (ts : List Tree) : Kind.exec.weigh ts = Tree.pointsAll ts := (Tree.pointsAll_eq_sum ts).symm

end Kind

/-- The code of an item weighs what the item does. -/
theorem Tree.points_ofItem {k : Kind} {x : k.Item} {t : Tree} (h : Tree.ofItem k x = .ok t) :
    t.points = k.weight x := by
  cases k with
  | integer =>
    obtain ⟨-, rfl⟩ := ofInteger_eq_ok_iff.1 h
    exact points_atom _
  | float | boolean =>
    cases h
    exact points_atom _
  | name =>
    simp only [ofItem, ofToken] at h
    split at h
    · cases h
    · split at h
      · cases h
        exact points_atom _
      · cases h
  | exec | code =>
    cases h
    rfl

/-! ## Bindings -/

namespace Bindings

/-- The trees that are bound. -/
def trees (b : Bindings) : List Tree := b.entries.map (·.2)

theorem mem_of_find? {key : String} {t : Tree} :
    ∀ es : List (String × Tree), find? key es = some t → t ∈ es.map (·.2)
  | [],           h => by cases h
  | (k, u) :: es, h => by
    rw [find?] at h
    split at h
    · cases h
      exact List.mem_cons_self
    · exact List.mem_cons_of_mem u (mem_of_find? es h)

theorem mem_of_put {key : String} {t u : Tree} :
    ∀ es : List (String × Tree), u ∈ (put key t es).map (·.2) → u = t ∨ u ∈ es.map (·.2)
  | [],           h => .inl (List.mem_singleton.1 h)
  | (k, v) :: es, h => by
    rw [put] at h
    split at h
    · exact (List.mem_cons.1 h).imp_right (List.mem_cons_of_mem v)
    · rcases List.mem_cons.1 h with rfl | h
      · exact .inr List.mem_cons_self
      · exact (mem_of_put es h).imp_right (List.mem_cons_of_mem v)

/-- Binding a name again drops what it was bound to. -/
theorem pointsAll_put_le (key : String) (t : Tree) : ∀ es : List (String × Tree),
    Tree.pointsAll ((put key t es).map (·.2)) ≤ Tree.pointsAll (es.map (·.2)) + t.points
  | []           => by simp [put]
  | (k, u) :: es => by
    have ih := pointsAll_put_le key t es
    rw [put]
    split
    · simp only [List.map_cons, Tree.pointsAll_cons]
      omega
    · simp only [List.map_cons, Tree.pointsAll_cons]
      omega

end Bindings

/-! ## Machines -/

namespace Machine

/-- All trees of a machine: what it is still to execute, what it holds as data, and what its names are bound to. -/
def trees (m : Machine ρ) : List Tree := m.exec ++ m.code ++ m.bindings.trees

/-- **What a machine weighs.** -/
def weight (m : Machine ρ) : Nat := (Kind.all.map fun k => k.weigh (m.stack k)).sum + Tree.pointsAll m.bindings.trees

/-- No tree of the machine has more than `size` points. -/
def TreesWithin (size : Nat) (m : Machine ρ) : Prop := ∀ t ∈ m.trees, t.points ≤ size

/-- Nothing on a stack weighs more than `size`, and no name is bound to more. -/
structure Bounded (size : Nat) (m : Machine ρ) : Prop where
  stack    : ∀ (k : Kind), ∀ x ∈ m.stack k, k.weight x ≤ size
  bindings : ∀ t ∈ m.bindings.trees, t.points ≤ size

/-- As literals weigh one, only trees matter. -/
theorem bounded_iff {size : Nat} (hs : 1 ≤ size) (m : Machine ρ) : m.Bounded size ↔ m.TreesWithin size := by
  constructor
  · intro h t ht
    rcases List.mem_append.1 ht with ht | ht
    · rcases List.mem_append.1 ht with ht | ht
      · exact h.stack .exec t ht
      · exact h.stack .code t ht
    · exact h.bindings t ht
  · intro h
    refine ⟨fun k x hx => ?_, fun t ht => h t (List.mem_append_right _ ht)⟩
    cases k with
    | integer | float | boolean | name => exact hs
    | exec => exact h x (List.mem_append_left _ (List.mem_append_left _ hx))
    | code => exact h x (List.mem_append_left _ (List.mem_append_right _ hx))

/-- **Replacing a stack** changes the weight by the difference of the two. -/
theorem weight_setStack (m : Machine ρ) (k : Kind) (xs : Stack k.Item) :
    (m.setStack k xs).weight + k.weigh (m.stack k) = m.weight + k.weigh xs := by
  cases k <;> simp [weight, Kind.all, stack, setStack, Stacks.get, Stacks.set] <;> omega

theorem weight_pop {m : Machine ρ} {k : Kind} {x : k.Item} {xs : Stack k.Item} (hs : m.stack k = x :: xs) :
    (m.setStack k xs).weight + k.weight x = m.weight := by
  have h := m.weight_setStack k xs
  rw [hs, Kind.weigh_cons] at h
  omega

theorem weight_push (m : Machine ρ) (k : Kind) (x : k.Item) :
    (m.setStack k (x :: m.stack k)).weight = m.weight + k.weight x := by
  have h := m.weight_setStack k (x :: m.stack k)
  rw [Kind.weigh_cons] at h
  omega

theorem weight_define (m : Machine ρ) (name : String) (t : Tree) : (m.define name t).weight ≤ m.weight + t.points := by
  have h : Tree.pointsAll (m.define name t).bindings.trees ≤ Tree.pointsAll m.bindings.trees + t.points :=
    Bindings.pointsAll_put_le _ t m.bindings.entries
  have hs : ∀ k, (m.define name t).stack k = m.stack k := fun _ => rfl
  simp only [weight, hs]
  omega

namespace Bounded

variable {size : Nat} {m : Machine ρ}

theorem setStack (h : m.Bounded size) {k : Kind} {xs : Stack k.Item} (hxs : ∀ x ∈ xs, k.weight x ≤ size) :
    (m.setStack k xs).Bounded size := by
  refine ⟨fun j x hx => ?_, h.bindings⟩
  by_cases hj : j = k
  · subst hj
    rw [stack_setStack_self] at hx
    exact hxs x hx
  · rw [stack_setStack_of_ne m hj] at hx
    exact h.stack j x hx

theorem define (h : m.Bounded size) (name : String) {t : Tree} (ht : t.points ≤ size) :
    (m.define name t).Bounded size := by
  refine ⟨h.stack, fun u hu => ?_⟩
  rcases Bindings.mem_of_put m.bindings.entries hu with rfl | hu
  · exact ht
  · exact h.bindings u hu

theorem congr (h : m.Bounded size) {m' : Machine ρ} (hs : m'.toStacks = m.toStacks) (hb : m'.bindings = m.bindings) :
    m'.Bounded size := by
  refine ⟨fun k x hx => h.stack k x ?_, fun t ht => h.bindings t (hb ▸ ht)⟩
  rw [Machine.stack, hs] at hx
  exact hx

theorem head (h : m.Bounded size) {k : Kind} {x : k.Item} {xs : Stack k.Item} (hs : m.stack k = x :: xs) :
    k.weight x ≤ size :=
  h.stack k x (by rw [hs]; exact List.mem_cons_self)

theorem tail (h : m.Bounded size) {k : Kind} {x : k.Item} {xs : Stack k.Item} (hs : m.stack k = x :: xs) :
    ∀ y ∈ xs, k.weight y ≤ size :=
  fun y hy => h.stack k y (by rw [hs]; exact List.mem_cons_of_mem x hy)

theorem pop (h : m.Bounded size) {k : Kind} {x : k.Item} {xs : Stack k.Item} (hs : m.stack k = x :: xs) :
    (m.setStack k xs).Bounded size :=
  h.setStack (h.tail hs)

theorem push (h : m.Bounded size) {k : Kind} {x : k.Item} (hx : k.weight x ≤ size) :
    (m.setStack k (x :: m.stack k)).Bounded size :=
  h.setStack fun y hy => by
    rcases List.mem_cons.1 hy with rfl | hy
    · exact hx
    · exact h.stack k y hy

end Bounded

theorem weight_congr {m m' : Machine ρ} (hs : m'.toStacks = m.toStacks) (hb : m'.bindings = m.bindings) :
    m'.weight = m.weight := by
  simp only [weight, Machine.stack, hs, hb]

end Machine
end PushMachine
