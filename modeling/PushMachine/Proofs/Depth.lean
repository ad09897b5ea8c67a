import Mathlib.Data.List.InsertIdx
import PushMachine.Proofs.Form
import PushMachine.Proofs.Stack
import PushMachine.Random.Twister
/-!
# Depths

A depth cuts a stack in two: what is above it, and the rest.  Shoving puts an item between the two parts and yanking
takes the first item of the rest (`shove_of_cut`, `yank_of_cut`), so at one depth they undo each other.  A depth is cut
down to the length when shoving and to one less when yanking, which is the same place, as the stack that is shoved into
is one item shorter.  The instructions take their depth off INTEGER first and so inherit this, also where INTEGER is the
stack that they rearrange (`exists_run_yank_shove`).
-/
namespace PushMachine
namespace Stack

variable {α : Type} {x : α} {depth : Int} {s above below : Stack α}

/-! ## Cutting a stack -/

/-- The items above a depth that an item can be shoved to. -/
theorem exists_cut (depth : Int) (s : Stack α) : ∃ above below, s = above ++ below ∧
    above.length = min depth.toNat s.length :=
  ⟨s.take depth.toNat, s.drop depth.toNat, (List.take_append_drop _ s).symm, List.length_take⟩

/-- The items above the item that is yanked from a depth. -/
theorem exists_cut_of_ne_nil (depth : Int) (h : s ≠ []) : ∃ above x below, s = above ++ x :: below ∧
    above.length = min depth.toNat (s.length - 1) := by
  have hpos : 0 < s.length := List.length_pos_of_ne_nil h
  have hi : min depth.toNat (s.length - 1) < s.length := by omega
  generalize min depth.toNat (s.length - 1) = i at hi ⊢
  refine ⟨s.take i, s[i], s.drop (i + 1), ?_, List.length_take_of_le (Nat.le_of_lt hi)⟩
  rw [← List.drop_eq_getElem_cons hi, List.take_append_drop]

theorem shove_of_cut (x : α) (hs : s = above ++ below) (hd : above.length = min depth.toNat s.length) :
    shove x depth s = above ++ x :: below := by
  have h := List.insertIdx_eraseIdx_getElem (l := above ++ x :: below) (n := above.length) (by simp)
  rw [shove, ← hd, hs]
  simpa [List.eraseIdx_append_of_length_le] using h

theorem yank_of_cut (hs : s = above ++ x :: below) (hd : above.length = min depth.toNat (s.length - 1)) :
    yank depth s = x :: (above ++ below) := by
  simp only [yank, ← hd]
  simp [hs, List.eraseIdx_append_of_length_le]

theorem yankdup_of_cut (hs : s = above ++ x :: below) (hd : above.length = min depth.toNat (s.length - 1)) :
    yankdup depth s = x :: s := by
  simp only [yankdup, ← hd]
  simp [hs]

/-! ## Shoving and yanking -/

theorem yank_shove (x : α) (depth : Int) (s : Stack α) : yank depth (shove x depth s) = push x s := by
  obtain ⟨above, below, hs, hd⟩ := exists_cut depth s
  have hshoved := shove_of_cut x hs hd
  rw [yank_of_cut hshoved, push, ← hs]
  rw [hshoved, hd, hs]
  simp

/-- The item that was yanked is shoved back from the top. -/
theorem shove_of_yank (hs : s = above ++ x :: below) (hd : above.length = min depth.toNat (s.length - 1)) :
    shove x depth (above ++ below) = s := by
  rw [shove_of_cut x rfl, hs]
  rw [hd, hs]
  simp

theorem shoveTop_yank (depth : Int) (s : Stack α) : StackOp.shoveTop depth (yank depth s) = s := by
  by_cases h : s = []
  · rw [h]
    rfl
  · obtain ⟨above, x, below, hs, hd⟩ := exists_cut_of_ne_nil depth h
    rw [yank_of_cut hs hd]
    exact shove_of_yank hs hd

/-- **The laws of the manipulations**, at one depth. -/
structure Lawful (depth : Int) (s : Stack α) : Prop where
  yank_shove   : ∀ x, yank depth (shove x depth s) = push x s
  shove_yank   : s ≠ [] → ∃ x rest, pop (yank depth s) = (some x, rest) ∧ shove x depth rest = s
  /-- Yanking brings one item up and leaves the others in order, -/
  yank_order   : s ≠ [] → ∃ above x below, s = above ++ x :: below ∧ above.length = min depth.toNat (s.length - 1) ∧
    yank depth s = x :: (above ++ below)
  /-- and shoving leaves all items in order. -/
  shove_order  : ∀ x, ∃ above below, s = above ++ below ∧ above.length = min depth.toNat s.length ∧
    shove x depth s = above ++ x :: below
  /-- What yanking brings up is what `yankdup` copies. -/
  yankdup_yank : s ≠ [] → ∃ x, peek (yank depth s) = some x ∧ yankdup depth s = push x s
  nil          : s = [] → yank depth s = [] ∧ yankdup depth s = []
  swap_yank    : 2 ≤ s.length → swap s = yank 1 s
  rot_yank     : 3 ≤ s.length → rot s = yank 2 s
  dup_yankdup  : 1 ≤ s.length → dup s = yankdup 0 s

theorem lawful (depth : Int) (s : Stack α) : Lawful depth s where
  yank_shove x := yank_shove x depth s
  shove_yank h := by
    obtain ⟨above, x, below, hs, hd⟩ := exists_cut_of_ne_nil depth h
    exact ⟨x, above ++ below, by rw [yank_of_cut hs hd]; rfl, shove_of_yank hs hd⟩
  yank_order h := by
    obtain ⟨above, x, below, hs, hd⟩ := exists_cut_of_ne_nil depth h
    exact ⟨above, x, below, hs, hd, yank_of_cut hs hd⟩
  shove_order x := by
    obtain ⟨above, below, hs, hd⟩ := exists_cut depth s
    exact ⟨above, below, hs, hd, shove_of_cut x hs hd⟩
  yankdup_yank h := by
    obtain ⟨above, x, below, hs, hd⟩ := exists_cut_of_ne_nil depth h
    exact ⟨x, by rw [yank_of_cut hs hd]; rfl, yankdup_of_cut hs hd⟩
  nil h := by
    rw [h]
    exact ⟨rfl, rfl⟩
  swap_yank h := by
    match s, h with
    | x :: y :: s, _ =>
      have hs : x :: y :: s = [x] ++ y :: s := rfl
      exact (yank_of_cut hs (by simp)).symm
  rot_yank h := by
    match s, h with
    | x :: y :: z :: s, _ =>
      have hs : x :: y :: z :: s = [x, y] ++ z :: s := rfl
      exact (yank_of_cut hs (by simp)).symm
  dup_yankdup h := by
    match s, h with
    | x :: s, _ =>
      have hs : x :: s = [] ++ x :: s := rfl
      exact (yankdup_of_cut hs (by simp)).symm

end Stack

/-! ## The instructions -/

namespace Machine

variable {ρ : Type}

/-- The depth that was pushed is not part of what it acts on. -/
theorem withDepth_push {k : Kind} (act : Int → Stack k.Item → Stack k.Item) (depth : Int) {m : Machine ρ}
    (h : m.stack k ≠ []) :
    StackOp.withDepth k act { m with integer := depth :: m.integer } = m.setStack k (act depth (m.stack k)) := by
  obtain ⟨x, xs, hx⟩ := List.exists_cons_of_ne_nil h
  rw [StackOp.withDepth]
  dsimp only
  rw [hx]

variable [RandomSource ρ]

/-- Yanking from a depth and shoving to it leaves every stack as it was, INTEGER included. -/
theorem exists_run_yank_shove (o : Options) {m : Machine ρ} {k : Kind} (depth : Int) (h : m.stack k ≠ []) :
    ∃ m', (Instruction.stack k .yank).run o { m with integer := depth :: m.integer } = .next m' ∧
      (Instruction.stack k .shove).run o { m' with integer := depth :: m'.integer } = .next m := by
  refine ⟨_, congrArg Outcome.next (withDepth_push Stack.yank depth h), congrArg Outcome.next ?_⟩
  have hyank : (m.setStack k (Stack.yank depth (m.stack k))).stack k = Stack.yank depth (m.stack k) :=
    m.stack_setStack_self k _
  have hne : (m.setStack k (Stack.yank depth (m.stack k))).stack k ≠ [] := by
    rw [hyank]
    exact fun hnil => h (List.Perm.eq_nil (hnil ▸ Stack.yank_perm depth (m.stack k)).symm)
  rw [withDepth_push StackOp.shoveTop depth hne, hyank, Stack.shoveTop_yank, setStack_setStack, setStack_stack]

/-- **The manipulations of a stack obey their laws**, on any stack at any depth, and so do the instructions. -/
theorem manipulations_lawful (o : Options) :
    (∀ (α : Type) (depth : Int) (s : Stack α), Stack.Lawful depth s) ∧
    ∀ (m : Machine ρ) (k : Kind) (depth : Int), m.stack k ≠ [] →
      ∃ m', (Instruction.stack k .yank).run o { m with integer := depth :: m.integer } = .next m' ∧
        (Instruction.stack k .shove).run o { m' with integer := depth :: m'.integer } = .next m :=
  ⟨fun _ => Stack.lawful, fun _ _ depth h => exists_run_yank_shove o depth h⟩

/-- INTEGER is rearranged by a depth beyond its bottom. -/
theorem manipulations_lawful_integer :
    let m := { Machine.initial (Twister.ofSeed 0) with integer := [1, 2, 3] }
    m.stack .integer ≠ [] ∧
      ∃ m', (Instruction.stack .integer .yank).run {} { m with integer := 7 :: m.integer } = .next m' ∧
        (Instruction.stack .integer .shove).run {} { m' with integer := 7 :: m'.integer } = .next m := by
  have hne : ({ Machine.initial (Twister.ofSeed 0) with integer := [1, 2, 3] } : Machine Twister).stack .integer ≠ [] :=
    List.cons_ne_nil _ _
  exact ⟨hne, (manipulations_lawful {}).2 _ .integer 7 hne⟩

end Machine
end PushMachine
