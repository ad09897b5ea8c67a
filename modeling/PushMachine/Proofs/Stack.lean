import Mathlib.Data.List.Perm.Basic
import PushMachine.Instruction.Manipulate
/-!
# Rearranging a stack

Swapping, rotating, shoving and yanking put the items of a stack into another order, whatever the depth; `yankdup` adds
one item that is there already.  None of them looks at an item, so they commute with a function on items.
-/
namespace PushMachine
namespace Stack

variable {α : Type}

theorem swap_perm : ∀ s : Stack α, (swap s).Perm s
  | []          => .refl _
  | [_]         => .refl _
  | x :: y :: s => .swap x y s

theorem rot_perm : ∀ s : Stack α, (rot s).Perm s
  | []               => .refl _
  | [_]              => .refl _
  | [_, _]           => .refl _
  | x :: y :: z :: s => ((List.Perm.swap x z (y :: s)).trans (.cons x (.swap y z s)))

theorem shove_perm (x : α) (depth : Int) (s : Stack α) : (shove x depth s).Perm (x :: s) :=
  List.perm_insertIdx x s (Nat.min_le_right _ _)

theorem shoveTop_perm (depth : Int) : ∀ s : Stack α, (StackOp.shoveTop depth s).Perm s
  | []     => .refl _
  | x :: s => shove_perm x depth s

theorem yank_perm (depth : Int) (s : Stack α) : (yank depth s).Perm s := by
  unfold yank
  dsimp only
  split
  · rename_i x h
    obtain ⟨hi, rfl⟩ := List.getElem?_eq_some_iff.1 h
    exact List.getElem_cons_eraseIdx_perm hi
  · exact .refl s

/-- On a stack that is not empty `yankdup` copies one of its items. -/
theorem exists_yankdup_eq (depth : Int) {s : Stack α} (h : s ≠ []) : ∃ x ∈ s, yankdup depth s = x :: s := by
  have hpos : 0 < s.length := List.length_pos_of_ne_nil h
  have hi : min depth.toNat (s.length - 1) < s.length := by omega
  refine ⟨s[min depth.toNat (s.length - 1)], List.getElem_mem hi, ?_⟩
  simp only [yankdup, List.getElem?_eq_getElem hi]

/-! ## Rearranging looks at no item -/

section Map

variable {β : Type} (g : α → β)

theorem map_dup (s : Stack α) : s.dup.map g = Stack.dup (s.map g) := by cases s <;> rfl

theorem map_swap (s : Stack α) : s.swap.map g = Stack.swap (s.map g) := by
  rcases s with _ | ⟨x, _ | ⟨y, s⟩⟩ <;> rfl

theorem map_rot (s : Stack α) : s.rot.map g = Stack.rot (s.map g) := by
  rcases s with _ | ⟨x, _ | ⟨y, _ | ⟨z, s⟩⟩⟩ <;> rfl

theorem map_shoveTop (depth : Int) (s : Stack α) :
    (StackOp.shoveTop depth s).map g = StackOp.shoveTop depth (s.map g) := by
  cases s with
  | nil => rfl
  | cons x s => simp [StackOp.shoveTop, shove, List.map_insertIdx]

theorem map_yank (depth : Int) (s : Stack α) : (yank depth s).map g = yank depth (s.map g) := by
  simp only [yank, List.length_map, List.getElem?_map]
  cases s[min depth.toNat (s.length - 1)]? with
  | none => rfl
  | some x => simp [List.eraseIdx_map]

theorem map_yankdup (depth : Int) (s : Stack α) : (yankdup depth s).map g = yankdup depth (s.map g) := by
  simp only [yankdup, List.length_map, List.getElem?_map]
  cases s[min depth.toNat (s.length - 1)]? <;> rfl

end Map
end Stack
end PushMachine
