import PushMachine.Proofs.Frame
import PushMachine.Proofs.Reference
/-!
# The evaluation loop by rules

`Machine.loop` counts a budget down.  `Evaluates` is the same loop by rules that know no budget, only the count of
steps and the limit, and it keeps the machines at which an item was popped.  A run ends normally exactly as the rules
say (`runCode_eq_ok_iff`), and what a run does is read off the rules: how many items it executes, and which of its
items can end it.
-/
namespace PushMachine
namespace Machine

variable {ρ : Type} [RandomSource ρ]

/-! ## One step -/

theorem step_of_exec {o : Options} {m : Machine ρ} {t : Tree} {rest : Stack Tree} (h : m.exec = t :: rest) :
    m.step o = some ({ m with exec := rest, steps := m.steps + 1 }.execute o t) := by
  simp only [step, h]

theorem step_eq_none_iff {o : Options} {m : Machine ρ} : m.step o = none ↔ m.exec = [] := by
  unfold step
  split <;> simp_all

/-- **What holds after each thing that an item can do holds after it is executed.** -/
theorem execute_induction {P : Machine ρ → Prop} {o : Options} {m : Machine ρ} (hm : P m)
    (hlist : ∀ items, P { m with exec := items ++ m.exec }) (hpush : ∀ k x, P (m.pushEnabled o k x))
    (hname : ∀ name, P (m.executeName o name)) (hrun : ∀ i, o.allows i = true → P (i.run o m).machine) (t : Tree) :
    P (m.execute o t).machine := by
  cases t with
  | list items => exact hlist items
  | atom token =>
    rw [execute]
    split
    · exact hm
    · exact hpush .integer _
    · exact hpush .float _
    · exact hpush .boolean _
    · exact hname _
    · split
      · exact hm
      · rename_i i hr
        have hrun := hrun i (Options.resolve_eq_ok hr).2.2.2
        split <;> (rename_i hi; rw [hi] at hrun; exact hrun)

/-- **A step counts one item**, whatever the item does. -/
theorem step_steps {o : Options} {m : Machine ρ} {r : Outcome Stop ρ} (h : m.step o = some r) :
    r.machine.steps = m.steps + 1 := by
  cases he : m.exec with
  | nil => rw [step_eq_none_iff.2 he] at h; cases h
  | cons t rest =>
    rw [step_of_exec he] at h
    cases h
    exact execute_steps o _ t

/-- The next item is a reference, written `token`. -/
def NextRefers (m : Machine ρ) (token stack operation : String) (rest : Stack Tree) : Prop :=
  m.exec = .atom token :: rest ∧ Token.classify token = .ok (.instruction stack operation)

/-- **A step aborts exactly on a reference that does not resolve**, and then only the item is gone and counted. -/
theorem step_eq_abort_iff {o : Options} {m m' : Machine ρ} {a : Abort} :
    m.step o = some (.stop (.abort a) m') ↔
      ∃ token stack operation rest, m.NextRefers token stack operation rest ∧
        o.resolve stack operation token = .error a ∧ m' = { m with exec := rest, steps := m.steps + 1 } := by
  constructor
  · intro h
    cases he : m.exec with
    | nil => rw [step_eq_none_iff.2 he] at h; cases h
    | cons t rest =>
      rw [step_of_exec he, Option.some.injEq] at h
      cases t with
      | list items => cases h
      | atom token =>
        simp only [execute] at h
        split at h
        · cases h
        · cases h
        · cases h
        · cases h
        · cases h
        · rename_i stack operation hc
          split at h
          · rename_i a' hr
            cases h
            exact ⟨token, stack, operation, rest, ⟨he, hc⟩, hr, rfl⟩
          · split at h <;> cases h
  · rintro ⟨token, stack, operation, rest, ⟨he, hc⟩, hr, rfl⟩
    rw [step_of_exec he]
    simp only [execute, hc, hr]

/-! ## The rules -/

/-- **How an evaluation ends**: from `m` it pops an item at each of the machines `ps` in turn, ends as `e` says, and
leaves `m'`. -/
inductive Evaluates (o : Options) : Machine ρ → List (Machine ρ) → Ending → Machine ρ → Prop
  | exhausted {m : Machine ρ} : o.stepLimit ≤ m.steps → Evaluates o m [] (.exhausted o.stepLimit m.steps) m
  | completed {m : Machine ρ} : m.steps < o.stepLimit → m.exec = [] → Evaluates o m [] (.completed m.steps) m
  | aborted {m m' : Machine ρ} {a : Abort} :
      m.steps < o.stepLimit → m.step o = some (.stop (.abort a) m') → Evaluates o m [m] (.aborted a m'.steps) m'
  | next {m m₁ m' : Machine ρ} {ps : List (Machine ρ)} {e : Ending} :
      m.steps < o.stepLimit → m.step o = some (.next m₁) → Evaluates o m₁ ps e m' → Evaluates o m (m :: ps) e m'

omit [RandomSource ρ] in
theorem budget_eq_zero_iff {o : Options} {m : Machine ρ} : m.budget o = 0 ↔ o.stepLimit ≤ m.steps := by
  unfold budget; omega

theorem budget_of_step {o : Options} {m : Machine ρ} {r : Outcome Stop ρ} (h : m.step o = some r) :
    r.machine.budget o = m.budget o - 1 := by
  have hs := step_steps h
  unfold budget; omega

/-- Counting the budget down follows the rules. -/
theorem evaluates_of_loop (o : Options) : ∀ (n : Nat) (m m' : Machine ρ) (e : Ending),
    m.budget o = n → loop o n m = (.ok e, m') → ∃ ps, Evaluates o m ps e m'
  | 0, m, m', e, hn, h => by
    cases h
    exact ⟨[], .exhausted (budget_eq_zero_iff.1 hn)⟩
  | n + 1, m, m', e, hn, h => by
    have hlt : m.steps < o.stepLimit := by
      have := mt budget_eq_zero_iff.2 (by omega : ¬ m.budget o = 0)
      omega
    simp only [loop] at h
    split at h
    · rename_i hs
      cases h
      exact ⟨[], .completed hlt (step_eq_none_iff.1 hs)⟩
    · rename_i m₁ hs
      have hb : m₁.budget o = n := by
        have := budget_of_step hs
        simp only [Outcome.machine] at this
        omega
      obtain ⟨ps, hps⟩ := evaluates_of_loop o n m₁ m' e hb h
      exact ⟨m :: ps, .next hlt hs hps⟩
    · rename_i hs
      cases h
      exact ⟨[m], .aborted hlt hs⟩
    · cases h

/-- What follows the rules is what counting the budget down gives. -/
theorem Evaluates.loop_eq {o : Options} {m m' : Machine ρ} {ps : List (Machine ρ)} {e : Ending}
    (h : Evaluates o m ps e m') : loop o (m.budget o) m = (.ok e, m') := by
  induction h with
  | exhausted hle => rw [budget_eq_zero_iff.2 hle]; rfl
  | @completed m hlt he =>
    obtain ⟨n, hn⟩ : ∃ n, m.budget o = n + 1 := ⟨m.budget o - 1, by unfold budget; omega⟩
    rw [hn]
    simp only [loop, step_eq_none_iff.2 he]
  | @aborted m m' a hlt hs =>
    obtain ⟨n, hn⟩ : ∃ n, m.budget o = n + 1 := ⟨m.budget o - 1, by unfold budget; omega⟩
    rw [hn]
    simp only [loop, hs]
  | @next m m₁ m' ps e hlt hs _ ih =>
    obtain ⟨n, hn⟩ : ∃ n, m.budget o = n + 1 := ⟨m.budget o - 1, by unfold budget; omega⟩
    have hb := budget_of_step hs
    simp only [Outcome.machine, hn, Nat.add_sub_cancel] at hb
    rw [hn]
    simp only [loop, hs]
    rw [← hb]
    exact ih

/-- The machine with one more tree to execute. -/
def load (m : Machine ρ) (t : Tree) : Machine ρ := { m with exec := t :: m.exec }

/-- **A run that no fault ends is an evaluation by the rules.** -/
theorem runCode_eq_ok_iff (o : Options) (m m' : Machine ρ) (t : Tree) (e : Ending) :
    m.runCode o t = (.ok e, m') ↔ ∃ ps, Evaluates o (m.load t) ps e m' :=
  ⟨evaluates_of_loop o _ _ m' e rfl, fun ⟨_, h⟩ => h.loop_eq⟩

namespace Evaluates

variable {o : Options} {m m' : Machine ρ} {ps : List (Machine ρ)} {e : Ending}

/-! ## Counting -/

/-- The count grows by one for each item. -/
theorem steps_eq (h : Evaluates o m ps e m') : m'.steps = m.steps + ps.length := by
  induction h with
  | exhausted | completed => rfl
  | aborted _ hs => exact step_steps hs
  | next _ hs _ ih =>
    have := step_steps hs
    simp only [Outcome.machine] at this
    rw [ih, this, List.length_cons]
    omega

/-- An item is popped only while steps are left. -/
theorem steps_lt (h : Evaluates o m ps e m') : ∀ p ∈ ps, (p.steps : Int) < o.stepLimit := by
  induction h with
  | exhausted | completed => simp
  | aborted hlt _ => simpa using hlt
  | next hlt _ _ ih => exact List.forall_mem_cons.2 ⟨hlt, ih⟩

theorem steps_le (h : Evaluates o m ps e m') (hm : m.steps ≤ o.stepLimit) : m'.steps ≤ o.stepLimit := by
  induction h with
  | exhausted | completed => exact hm
  | aborted hlt hs =>
    have := step_steps hs
    simp only [Outcome.machine] at this
    omega
  | next hlt hs _ ih =>
    have := step_steps hs
    simp only [Outcome.machine] at this
    exact ih (by omega)

/-! ## Endings -/

/-- What is reported is the count. -/
theorem ending_steps (h : Evaluates o m ps e m') : e.steps = m'.steps := by
  induction h with
  | exhausted | completed | aborted => rfl
  | next _ _ _ ih => exact ih

/-- An evaluation that aborts does so at one of the items it pops. -/
theorem exists_abort {a : Abort} {n : Nat} (h : Evaluates o m ps (.aborted a n) m') :
    ∃ p ∈ ps, p.step o = some (.stop (.abort a) m') := by
  generalize he : Ending.aborted a n = e at h
  induction h with
  | exhausted | completed => cases he
  | @aborted m m' _ _ hs =>
    cases he
    exact ⟨m, List.mem_singleton.2 rfl, hs⟩
  | next _ _ _ ih =>
    obtain ⟨p, hp, hs⟩ := ih he
    exact ⟨p, List.mem_cons_of_mem _ hp, hs⟩

/-- An item that aborts ends the evaluation there. -/
theorem eq_of_abort {a : Abort} {p m₁ : Machine ρ} (h : Evaluates o m ps e m') (hp : p ∈ ps)
    (hs : p.step o = some (.stop (.abort a) m₁)) : e = .aborted a m₁.steps ∧ m' = m₁ := by
  induction h with
  | exhausted | completed => cases hp
  | aborted _ hs' =>
    cases List.mem_singleton.1 hp
    rw [hs] at hs'
    cases hs'
    exact ⟨rfl, rfl⟩
  | next _ hs' _ ih =>
    rcases List.mem_cons.1 hp with rfl | hp
    · -- a step that goes on is not one that aborts
      rw [hs] at hs'
      cases hs'
    · exact ih hp

/-- An evaluation that does not abort used up its steps, or ended with some left and nothing to execute. -/
theorem eq_of_not_aborted (h : Evaluates o m ps e m') (hm : m.steps ≤ o.stepLimit) (hn : ∀ a n, e ≠ .aborted a n) :
    (e = .exhausted o.stepLimit m'.steps ∧ m'.steps = o.stepLimit) ∨
      (e = .completed m'.steps ∧ m'.exec = [] ∧ m'.steps < o.stepLimit) := by
  induction h with
  | exhausted hle => exact .inl ⟨rfl, by omega⟩
  | completed hlt he => exact .inr ⟨rfl, he, hlt⟩
  | aborted => exact absurd rfl (hn _ _)
  | next hlt hs _ ih =>
    have := step_steps hs
    simp only [Outcome.machine] at this
    exact ih (by omega) hn

end Evaluates
end Machine
end PushMachine
