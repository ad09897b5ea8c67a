import Mathlib.Algebra.Order.BigOperators.Group.List
import Mathlib.Algebra.Order.Group.Int
import Mathlib.Algebra.Ring.Int.Defs
import PushMachine.Random.Code
/-!
# The size of random code

Whatever a source draws, a random tree has the number of points that it was asked for: the parts of a decomposition are
positive and add up, and shuffling the items of a list keeps their points together.  `Generator.Yields` says what holds
of every value that a generator returns, for every supply.
-/
namespace PushMachine

variable {ρ α β : Type}

namespace Generator

/-! ## One generator after the other -/

theorem bind_of_ok {g : Generator ρ α} {f : α → Generator ρ β} {s s₁ : Supply ρ} {a : α} (h : g s = (.ok a, s₁)) :
    (g >>= f) s = f a s₁ := by
  show Generator.bind g f s = f a s₁
  rw [Generator.bind, h]

theorem bind_of_error {g : Generator ρ α} {f : α → Generator ρ β} {s s₁ : Supply ρ} {e : Fault}
    (h : g s = (.error e, s₁)) : (g >>= f) s = (.error e, s₁) := by
  show Generator.bind g f s = (.error e, s₁)
  rw [Generator.bind, h]

/-- A draw is always there. -/
theorem draw_bind (d : ρ → α × ρ) (f : α → Generator ρ β) (s : Supply ρ) :
    (draw d >>= f) s = f (d s.source).1 { s with source := (d s.source).2 } := rfl

/-! ## What a generator returns -/

/-- Every value that the generator returns satisfies `P`. -/
def Yields (g : Generator ρ α) (P : α → Prop) : Prop := ∀ s a s', g s = (.ok a, s') → P a

variable {P : α → Prop} {Q : β → Prop}

theorem yields_pure {a : α} (h : P a) : (pure a : Generator ρ α).Yields P := by
  intro s b s' hs
  cases hs
  exact h

theorem yields_fail (e : Fault) : (fail e : Generator ρ α).Yields P := by
  intro s a s' hs
  cases hs

theorem yields_draw {d : ρ → α × ρ} (h : ∀ s, P (d s).1) : (draw d).Yields P := by
  intro s a s' hs
  cases hs
  exact h s.source

theorem Yields.bind {g : Generator ρ α} {f : α → Generator ρ β} (hg : g.Yields P) (hf : ∀ a, P a → (f a).Yields Q) :
    (g >>= f).Yields Q := by
  intro s b s' hs
  rcases h : g s with ⟨e | a, s₁⟩
  · rw [bind_of_error h] at hs
    cases hs
  · rw [bind_of_ok h] at hs
    exact hf a (hg s a s₁ h) s₁ b s' hs

theorem yields_map {f : α → β} (g : Generator ρ α) (h : ∀ a, Q (f a)) : (f <$> g).Yields Q := by
  rw [map_eq_pure_bind]
  exact Yields.bind (P := fun _ => True) (fun _ _ _ _ => trivial) fun a _ => yields_pure (h a)

theorem yields_ofExcept {x : Except Fault α} (h : ∀ a, x = .ok a → P a) : (ofExcept x : Generator ρ α).Yields P := by
  cases x with
  | ok a => exact yields_pure (h a rfl)
  | error e => exact yields_fail e

/-- A list of generators returns a list, item by item. -/
theorem yields_mapM {R : α → β → Prop} {f : α → Generator ρ β} :
    ∀ as : List α, (∀ a ∈ as, (f a).Yields (R a)) → (as.mapM f).Yields (List.Forall₂ R as)
  | [],      _ => by
    rw [List.mapM_nil]
    exact yields_pure .nil
  | a :: as, h => by
    rw [List.mapM_cons]
    refine (h a List.mem_cons_self).bind fun b hb => ?_
    refine (yields_mapM as fun a' ha => h a' (List.mem_cons_of_mem a ha)).bind fun bs hbs => ?_
    exact yields_pure (.cons hb hbs)

end Generator

open Generator (yields_pure yields_fail yields_draw yields_map yields_ofExcept yields_mapM)

variable [RandomSource ρ]

/-! ## Draws -/

theorem Draw.between_yields {low high : Int} (h : low ≤ high) :
    (Generator.draw (between low high) : Generator ρ Int).Yields fun n => low ≤ n ∧ n ≤ high :=
  yields_draw fun s => between_bounds h s

theorem Draw.shuffleFrom_perm : ∀ (i : Nat) (xs : Array α) (s : ρ), (shuffleFrom i xs s).1.Perm xs
  | 0,     xs, _ => .refl xs
  | i + 1, xs, s => by
    rw [shuffleFrom]
    rcases below (i + 2) s with ⟨j, s'⟩
    refine (shuffleFrom_perm i _ s').trans ?_
    rw [Array.swapIfInBounds_def]
    split
    · split
      · exact Array.swap_perm _ _
      · exact .refl xs
    · exact .refl xs

theorem Draw.shuffle_perm (xs : List α) (s : ρ) : (shuffle xs s).1.Perm xs :=
  (shuffleFrom_perm (xs.length - 1) xs.toArray s).toList

theorem Draw.shuffle_yields (xs : List α) :
    (Generator.draw (shuffle xs) : Generator ρ (List α)).Yields (List.Perm · xs) :=
  yields_draw fun s => shuffle_perm xs s

/-! ## Random trees -/

namespace RandomCode

/-- **The parts of a decomposition are positive and add up**, however many there may be. -/
theorem parts_yields : ∀ (maxParts : Nat) (n : Int), 1 ≤ n →
    (parts maxParts n : Generator ρ (List Int)).Yields fun ps => (∀ p ∈ ps, 1 ≤ p) ∧ ps.sum = n
  | 0,            n, h => yields_pure (by simpa using h)
  | 1,            n, h => yields_pure (by simpa using h)
  | maxParts + 2, n, h => by
    rw [parts]
    split
    · rename_i hn
      refine (Draw.between_yields (by omega)).bind fun part hpart => ?_
      refine (parts_yields (maxParts + 1) (n - part) (by omega)).bind fun rest hrest => yields_pure ⟨?_, ?_⟩
      · intro p hp
        rcases List.mem_cons.1 hp with rfl | hp
        · exact hpart.1
        · exact hrest.1 p hp
      · rw [List.sum_cons, hrest.2]
        omega
    · exact yields_pure (by simpa using h)

theorem constant_yields (o : Options) (k : Kind) : (constant o k : Generator ρ Tree).Yields (·.points = 1) := by
  unfold constant
  split
  · refine (yields_draw (P := fun _ => True) fun _ => trivial).bind fun n _ => yields_ofExcept fun t ht => ?_
    obtain ⟨-, rfl⟩ := Tree.ofInteger_eq_ok_iff.1 ht
    exact Tree.points_atom _
  · exact yields_map _ fun _ => Tree.points_atom _
  · exact yields_map _ fun _ => Tree.points_atom _
  · exact yields_map _ fun _ => Tree.points_atom _

theorem atom_yields (o : Options) : (atom o : Generator ρ Tree).Yields (·.points = 1) := by
  unfold atom
  dsimp only
  split
  · exact yields_fail _
  · refine (yields_draw (P := fun _ => True) fun _ => trivial).bind fun i _ => ?_
    split
    · exact yields_pure (Tree.points_atom _)
    · exact constant_yields o _

theorem atom_yields_size (o : Options) {size : Int} (h : size ≤ 1) :
    (atom o : Generator ρ Tree).Yields fun t => (t.points : Int) = max 1 size := by
  intro s t s' hs
  have ht : t.points = 1 := atom_yields o s t s' hs
  omega

/-- Trees of positive sizes have as many points as the sizes add up to. -/
theorem pointsAll_of_sizes {sizes : List Int} {items : List Tree}
    (h : List.Forall₂ (fun size t => (Tree.points t : Int) = max 1 size) sizes items) (hpos : ∀ p ∈ sizes, 1 ≤ p) :
    (Tree.pointsAll items : Int) = sizes.sum := by
  induction h with
  | nil => simp
  | cons ht _ ih =>
    have hp := hpos _ List.mem_cons_self
    have hrest := ih fun p hp => hpos p (List.mem_cons_of_mem _ hp)
    rw [Tree.pointsAll_cons, List.sum_cons]
    omega

/-- **A random tree has exactly the size asked for**, or one point if that is more. -/
theorem treeWithin_yields (o : Options) : ∀ (depth : Nat) (size : Int), size ≤ depth →
    (treeWithin o depth size : Generator ρ Tree).Yields fun t => (t.points : Int) = max 1 size
  | 0,         size, h => atom_yields_size o (by omega)
  | depth + 1, size, h => by
    rw [treeWithin]
    split
    · rename_i hsize
      exact atom_yields_size o hsize
    · rename_i hsize
      refine (parts_yields _ (size - 1) (by omega)).bind fun sizes ⟨hpos, hsum⟩ => ?_
      -- no part is larger than all of them together, so the depth that is left suffices for each
      have hle : ∀ p ∈ sizes, p ≤ depth := fun p hp => by
        have := List.single_le_sum (fun q hq => by have := hpos q hq; omega) p hp
        omega
      refine (yields_mapM sizes fun p hp => treeWithin_yields o depth p (hle p hp)).bind fun items hitems => ?_
      refine (Draw.shuffle_yields items).bind fun shuffled hperm => yields_pure ?_
      have hall := pointsAll_of_sizes hitems hpos
      have hshuffled : Tree.pointsAll shuffled = Tree.pointsAll items := Tree.pointsAll_perm hperm
      rw [Tree.points_list, hshuffled]
      omega

theorem ofSize_yields (o : Options) (size : Int) :
    (ofSize o size : Generator ρ Tree).Yields fun t => (t.points : Int) = max 1 size :=
  treeWithin_yields o size.toNat size (by omega)

/-- **A random tree of at most so many points has no more.** -/
theorem upTo_yields (o : Options) (maxPoints : Int) :
    (upTo o maxPoints : Generator ρ Tree).Yields fun t => (t.points : Int) ≤ max 1 maxPoints := by
  refine (Draw.between_yields (by omega)).bind fun size hsize => ?_
  intro s t s' hs
  have ht := ofSize_yields o size s t s' hs
  omega

end RandomCode
end PushMachine
