import PushMachine.Proofs.Evaluation
/-!
# Sessions

What may be done to a machine from outside, one operation after the other.  A machine that comes about in this way
from one with nothing on it has never counted more steps than its options allow (`performAll_steps_le`).
-/
namespace PushMachine

/-- What may be done to a machine. -/
inductive Operation where
  | run (text : String)
  | runTree (t : Tree)
  | runCode (t : Tree)
  | execute (t : Tree)
  | reset
  | flush
  | define (name : String) (t : Tree)

namespace Machine

variable {ρ : Type} [RandomSource ρ]

/-- The machine after an operation, however the operation ended. -/
def perform (o : Options) (m : Machine ρ) : Operation → Machine ρ
  | .run text      => (m.run o text).2
  | .runTree t     => (m.runTree o t).2
  | .runCode t     => (m.runCode o t).2
  | .execute t     => (m.execute o t).machine
  | .reset         => m.reset
  | .flush         => m.flush
  | .define name t => m.define name t

/-- **The machine after a session.** -/
def performAll (o : Options) (m : Machine ρ) (ops : List Operation) : Machine ρ := ops.foldl (perform o) m

/-- What every operation keeps, a session keeps. -/
theorem performAll_induction {o : Options} {P : Machine ρ → Prop} (h : ∀ m op, P m → P (m.perform o op)) :
    ∀ (ops : List Operation) {m : Machine ρ}, P m → P (m.performAll o ops)
  | [],        _, hm => hm
  | op :: ops, m, hm => performAll_induction h ops (h m op hm)

/-! ## Steps stay within the limit -/

theorem loop_steps_le (o : Options) : ∀ (n : Nat) (m : Machine ρ), (loop o n m).2.steps ≤ m.steps + n
  | 0,     m => Nat.le_refl _
  | n + 1, m => by
    simp only [loop]
    split
    · exact Nat.le_add_right _ _
    · rename_i m₁ hs
      have h₁ := step_steps hs
      have h₂ := loop_steps_le o n m₁
      simp only [Outcome.machine] at h₁
      omega
    all_goals
      rename_i hs
      have := step_steps hs
      simp only [Outcome.machine] at this ⊢
      omega

theorem runCode_steps_le {o : Options} {m : Machine ρ} (hm : m.steps ≤ o.stepLimit) (t : Tree) :
    (m.runCode o t).2.steps ≤ o.stepLimit := by
  have : (m.runCode o t).2.steps ≤ m.steps + m.budget o := loop_steps_le o _ _
  unfold budget at this
  omega

theorem runTree_steps_le {o : Options} (hl : 0 ≤ o.stepLimit) (m : Machine ρ) (t : Tree) :
    (m.runTree o t).2.steps ≤ o.stepLimit := by
  have hstart : (m.start o t).steps = 0 := by unfold start; split <;> rfl
  have hfinish : ∀ m : Machine ρ, (m.finish o).steps = m.steps := fun m => by unfold finish; split <;> rfl
  have hr := runCode_steps_le (o := o) (m := m.start o t) (by rw [hstart]; exact hl) t
  unfold runTree
  split <;> (rename_i h; rw [h] at hr)
  · rw [hfinish]; exact hr
  · exact hr

theorem perform_steps_le {o : Options} (hl : 0 ≤ o.stepLimit) (m : Machine ρ) (op : Operation)
    (hm : m.steps ≤ o.stepLimit) : (m.perform o op).steps ≤ o.stepLimit := by
  cases op with
  | run text =>
    simp only [perform, run]
    split
    · exact hm
    · exact runTree_steps_le hl m _
  | runTree t => exact runTree_steps_le hl m t
  | runCode t => exact runCode_steps_le hm t
  | execute t => rw [perform, execute_steps]; exact hm
  | reset => exact hl
  | flush | define => exact hm

/-- **No session counts past the limit.** -/
theorem performAll_steps_le {o : Options} (hl : 0 ≤ o.stepLimit) (source : ρ) (ops : List Operation) :
    ((initial source).performAll o ops).steps ≤ o.stepLimit :=
  performAll_induction (P := fun m => (m.steps : Int) ≤ o.stepLimit) (perform_steps_le hl) ops hl

end Machine
end PushMachine
