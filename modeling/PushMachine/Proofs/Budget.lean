import PushMachine.Proofs.Evaluation
import PushMachine.Random.Twister
/-!
# The step limit only cuts a run off

Nothing that a step does reads the limit (`step_withLimit`), so the limit says only how many of the same steps are
made.  `after?` is the machine after so many steps, whatever the limit.  A run that ended before its limit ends in the
same way under a higher one, and a run that was cut off goes on from where it was cut (`runCode_withLimit`).
-/
namespace PushMachine

variable {ρ : Type} [RandomSource ρ]

def Options.withLimit (o : Options) (limit : Int) : Options := { o with stepLimit := limit }

/-! ## No step reads the limit -/

theorem RandomCode.treeWithin_withLimit (o : Options) (limit : Int) :
    ∀ depth : Nat, (treeWithin (o.withLimit limit) depth : Int → Generator ρ Tree) = treeWithin o depth
  | 0         => rfl
  | depth + 1 => by
    funext size
    have ih := treeWithin_withLimit o limit depth
    have hatom : (atom (o.withLimit limit) : Generator ρ Tree) = atom o := rfl
    simp only [treeWithin, ih, hatom]

theorem RandomCode.upTo_withLimit (o : Options) (limit maxPoints : Int) :
    (upTo (o.withLimit limit) maxPoints : Generator ρ Tree) = upTo o maxPoints := by
  simp only [upTo, ofSize, treeWithin_withLimit]

theorem Instruction.run_withLimit (o : Options) (limit : Int) (m : Machine ρ) (i : Instruction) :
    i.run (o.withLimit limit) m = i.run o m := by
  cases i with
  | stack k op => cases op <;> rfl
  | integer op => cases op <;> rfl
  | float op   => cases op <;> rfl
  | boolean op => rfl
  | name op    => rfl
  | exec op    => cases op <;> rfl
  | code op    =>
    -- the sizes of random code have to be opened before the two sides are compared
    by_cases hop : op = .rand
    · subst hop
      simp only [run, CodeOp.run, CodeOp.random, RandomCode.upTo_withLimit]
      rfl
    · cases op <;> first | rfl | exact absurd rfl hop

namespace Machine

/-- **A step does not depend on the limit.** -/
theorem step_withLimit (o : Options) (limit : Int) (m : Machine ρ) : m.step (o.withLimit limit) = m.step o := by
  cases he : m.exec with
  | nil => rw [step_eq_none_iff.2 he, step_eq_none_iff.2 he]
  | cons t rest =>
    rw [step_of_exec he, step_of_exec he]
    cases t with
    | list items => rfl
    | atom token =>
      simp only [execute, Instruction.run_withLimit]
      rfl

/-! ## So many steps -/

/-- The machine after so many steps, if none of them stops the evaluation. -/
def after? (o : Options) : Nat → Machine ρ → Option (Machine ρ)
  | 0,     m => some m
  | n + 1, m =>
    match m.step o with
    | some (.next m') => after? o n m'
    | _               => none

variable {o : Options} {m m₁ m' : Machine ρ} {n k : Nat}

theorem after?_of_step (h : m.step o = some (.next m₁)) : after? o (n + 1) m = after? o n m₁ := by
  simp only [after?, h]

theorem step_of_after? (h : after? o (n + 1) m = some m') :
    ∃ m₁, m.step o = some (.next m₁) ∧ after? o n m₁ = some m' := by
  rw [after?] at h
  split at h
  · rename_i m₁ hs
    exact ⟨m₁, hs, h⟩
  · cases h

theorem after?_withLimit (o : Options) (limit : Int) :
    ∀ (n : Nat) (m : Machine ρ), after? (o.withLimit limit) n m = after? o n m
  | 0,     _ => rfl
  | n + 1, m => by simp only [after?, step_withLimit, after?_withLimit o limit n]

theorem after?_steps : ∀ {n : Nat} {m : Machine ρ}, after? o n m = some m' → m'.steps = m.steps + n
  | 0,     m, h => by cases h; rfl
  | n + 1, m, h => by
    obtain ⟨m₁, hs, h₁⟩ := step_of_after? h
    have hcount := step_steps hs
    have ih := after?_steps h₁
    simp only [Outcome.machine] at hcount
    omega

theorem after?_add (k : Nat) : ∀ {n : Nat} {m : Machine ρ}, after? o n m = some m' → after? o (n + k) m = after? o k m'
  | 0,     m, h => by cases h; rw [Nat.zero_add]
  | n + 1, m, h => by
    obtain ⟨m₁, hs, h₁⟩ := step_of_after? h
    rw [Nat.add_right_comm, after?_of_step hs]
    exact after?_add k h₁

/-- The loop may be entered where it stands after so many steps. -/
theorem loop_add (k : Nat) : ∀ {n : Nat} {m : Machine ρ}, after? o n m = some m' → loop o (n + k) m = loop o k m'
  | 0,     m, h => by cases h; rw [Nat.zero_add]
  | n + 1, m, h => by
    obtain ⟨m₁, hs, h₁⟩ := step_of_after? h
    rw [Nat.add_right_comm, loop, hs]
    exact loop_add k h₁

/-- The loop runs out after exactly the steps that it has. -/
theorem after?_of_exhausted {limit : Int} {steps : Nat} :
    ∀ {n : Nat} {m : Machine ρ}, loop o n m = (.ok (.exhausted limit steps), m') → after? o n m = some m'
  | 0,     m, h => by cases h; rfl
  | n + 1, m, h => by
    rw [loop] at h
    split at h
    · cases h
    · rename_i m₁ hs
      rw [after?_of_step hs]
      exact after?_of_exhausted h
    · cases h
    · cases h

/-- A loop that completes has come to a machine with nothing to execute, and reports its count. -/
theorem after?_of_completed {steps : Nat} : ∀ {n : Nat} {m : Machine ρ}, loop o n m = (.ok (.completed steps), m') →
    ∃ k < n, after? o k m = some m' ∧ m'.exec = [] ∧ m'.steps = steps
  | 0,     m, h => by cases h
  | n + 1, m, h => by
    rw [loop] at h
    split at h
    · rename_i hs
      cases h
      exact ⟨0, n.succ_pos, rfl, step_eq_none_iff.1 hs, rfl⟩
    · rename_i m₁ hs
      obtain ⟨k, hk, hafter, hend⟩ := after?_of_completed h
      exact ⟨k + 1, Nat.succ_lt_succ hk, by rw [after?_of_step hs, hafter], hend⟩
    · cases h
    · cases h

/-- A loop with a step to spare completes where there is nothing to execute. -/
theorem loop_of_after? (h : after? o n m = some m') (he : m'.exec = []) (hk : n < k) :
    loop o k m = (.ok (.completed m'.steps), m') := by
  obtain ⟨j, rfl⟩ : ∃ j, k = n + (j + 1) := ⟨k - n - 1, by omega⟩
  rw [loop_add (j + 1) h, loop, step_eq_none_iff.2 he]

/-- A loop that ends with steps to spare makes no use of more. -/
theorem loop_add_of_not_exhausted (k : Nat) :
    ∀ (n : Nat) (m : Machine ρ), (∀ limit steps, (loop o n m).1 ≠ .ok (.exhausted limit steps)) →
      loop o (n + k) m = loop o n m
  | 0,     m, h => absurd rfl (h _ _)
  | n + 1, m, h => by
    rw [loop] at h
    rw [Nat.add_right_comm, loop, loop]
    cases hs : m.step o with
    | none => rfl
    | some out =>
      simp only [hs] at h
      cases out with
      | next m₁ => exact loop_add_of_not_exhausted k n m₁ h
      | stop cause m₁ => cases cause <;> rfl

/-- Only the report of running out names the limit. -/
theorem loop_withLimit (o : Options) (limit : Int) :
    ∀ (n : Nat) (m : Machine ρ), (∀ limit steps, (loop o n m).1 ≠ .ok (.exhausted limit steps)) →
      loop (o.withLimit limit) n m = loop o n m
  | 0,     m, h => absurd rfl (h _ _)
  | n + 1, m, h => by
    rw [loop] at h
    rw [loop, loop, step_withLimit]
    cases hs : m.step o with
    | none => rfl
    | some out =>
      simp only [hs] at h
      cases out with
      | next m₁ => exact loop_withLimit o limit n m₁ h
      | stop cause m₁ => cases cause <;> rfl

omit [RandomSource ρ] in
theorem budget_withLimit (m : Machine ρ) {limit : Int} (h : o.stepLimit ≤ limit) :
    m.budget (o.withLimit limit) = m.budget o + (m.budget (o.withLimit limit) - m.budget o) := by
  simp only [budget, Options.withLimit]
  omega

/-! ## Raising the limit -/

/-- **A higher limit only extends a run.**  A run that did not run out, be it completed, aborted or ended by a fault,
ends in the same way at the same machine; a run that did goes on, from the machine at which it was cut off, to where the
run under the higher limit ends. -/
theorem runCode_withLimit (o : Options) (limit : Int) (h : o.stepLimit ≤ limit) (m : Machine ρ) (t : Tree) :
    (∀ result m', m.runCode o t = (result, m') → (∀ l steps, result ≠ .ok (.exhausted l steps)) →
      m.runCode (o.withLimit limit) t = (result, m')) ∧
    (∀ l steps m', m.runCode o t = (.ok (.exhausted l steps), m') →
      loop (o.withLimit limit) (m'.budget (o.withLimit limit)) m' = m.runCode (o.withLimit limit) t) := by
  constructor
  · intro result m' hr hn
    have hloop : loop o (m.budget o) (m.load t) = (result, m') := hr
    have hlimit : ∀ l steps, (loop o (m.budget o) (m.load t)).1 ≠ .ok (.exhausted l steps) := by
      rw [hloop]; exact hn
    have hsame := loop_withLimit o limit _ _ hlimit
    calc m.runCode (o.withLimit limit) t
        = loop (o.withLimit limit) (m.budget (o.withLimit limit)) (m.load t) := rfl
      _ = loop (o.withLimit limit) (m.budget o) (m.load t) := by
          rw [budget_withLimit m h]
          apply loop_add_of_not_exhausted
          rw [hsame]
          exact hlimit
      _ = (result, m') := by rw [hsame, hloop]
  · intro l steps m' hr
    have hafter : after? (o.withLimit limit) (m.budget o) (m.load t) = some m' := by
      rw [after?_withLimit]
      exact after?_of_exhausted hr
    have hsteps : m'.steps = (m.load t).steps + m.budget o := after?_steps hafter
    have hbudget : m.budget (o.withLimit limit) = m.budget o + m'.budget (o.withLimit limit) := by
      simp only [budget, Options.withLimit, load] at hsteps ⊢
      omega
    have hrun := loop_add (m'.budget (o.withLimit limit)) hafter
    rw [← hbudget] at hrun
    exact hrun.symm

/-- A program of three items that is cut off after the first goes on to its end, and one that ends on the last step
before the limit ends there under a higher one. -/
theorem runCode_withLimit_conjunction :
    let m := initial (Twister.ofSeed 0)
    let t := Tree.list [.atom "true", .atom "boolean.dup", .atom "boolean.and"]
    let cut := { m with boolean := [true], exec := [.atom "boolean.dup", .atom "boolean.and"], steps := 2 }
    let tight : Options := { stepLimit := 2 }
    let ample : Options := { stepLimit := 5 }
    (m.runCode tight t = (.ok (.exhausted 2 2), cut) ∧
      loop (tight.withLimit 9) (cut.budget (tight.withLimit 9)) cut = m.runCode (tight.withLimit 9) t) ∧
    m.runCode (ample.withLimit 9) t = (.ok (.completed 4), { m with boolean := [true], steps := 4 }) := by
  intro m t cut tight ample
  have hcut : m.runCode tight t = (.ok (.exhausted 2 2), cut) := rfl
  have hend : m.runCode ample t = (.ok (.completed 4), { m with boolean := [true], steps := 4 }) := rfl
  exact ⟨⟨hcut, (runCode_withLimit tight 9 (by decide) m t).2 2 2 cut hcut⟩,
    (runCode_withLimit ample 9 (by decide) m t).1 _ _ hend (by simp)⟩

end Machine
end PushMachine
