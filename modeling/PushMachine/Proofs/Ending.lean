import PushMachine.Proofs.Session
import PushMachine.Random.Twister
/-!
# How a run ends

A run that no fault ends has executed at most as many items as steps were left.  It aborts exactly when it pops a
reference to what is not enabled; otherwise it is exhausted exactly when its steps are used up, even with nothing left
to execute, and completed with nothing left to execute in all other cases (`ending_of_runCode`).
-/
namespace PushMachine
namespace Machine

variable {ρ : Type} [RandomSource ρ]

/-- At one of these machines the next item is a reference to a stack that is not enabled. -/
def PopsUnknownStack (o : Options) (ps : List (Machine ρ)) : Prop :=
  ∃ p ∈ ps, ∃ token stack operation rest, p.NextRefers token stack operation rest ∧ ¬ o.HasStack stack

/-- At one of these machines the next item is a reference to an enabled stack and an operation that it does not have. -/
def PopsUnknownInstruction (o : Options) (ps : List (Machine ρ)) : Prop :=
  ∃ p ∈ ps, ∃ token stack operation rest, p.NextRefers token stack operation rest ∧ o.HasStack stack ∧
    ¬ o.HasInstruction stack operation

/-- **What a run did**: from `m` it popped an item at each of the machines `ps` in turn, ended as `e` says, and left
`m'`. -/
structure Accounted (o : Options) (m : Machine ρ) (ps : List (Machine ρ)) (e : Ending) (m' : Machine ρ) : Prop where
  /-- It executed no more items than steps were left. -/
  items_le : (ps.length : Int) ≤ o.stepLimit - m.steps
  /-- The count is that of the items, and it never passed the limit. -/
  steps_eq : m'.steps = m.steps + ps.length
  steps_lt : ∀ p ∈ ps, (p.steps : Int) < o.stepLimit
  steps_le : (m'.steps : Int) ≤ o.stepLimit
  /-- What is reported is the count, and the limit if that was reached. -/
  counted : e.steps = m'.steps
  reported : ∀ limit steps, e = .exhausted limit steps → limit = o.stepLimit ∧ steps = m'.steps
  /-- It aborted exactly for a reference to what is not enabled. -/
  unknownStack : e.status = "unknown_stack" ↔ PopsUnknownStack o ps
  unknownInstruction : e.status = "unknown_instruction" ↔ PopsUnknownInstruction o ps
  /-- Such a reference ended it, and left everything as it was before it was popped, except for the item itself and the
  count. -/
  aborted : ∀ p ∈ ps, ∀ token stack operation rest, p.NextRefers token stack operation rest →
    ¬ o.HasInstruction stack operation →
      (∃ a, e = .aborted a (p.steps + 1) ∧ a.token = token) ∧ m' = { p with exec := rest, steps := p.steps + 1 }
  /-- If it did not abort, it was exhausted exactly if its steps were used up. -/
  exhausted : (∀ a n, e ≠ .aborted a n) → (e.status = "resource_exhausted" ↔ (m'.steps : Int) = o.stepLimit)
  /-- If it neither aborted nor was exhausted, it was completed. -/
  completed : (∀ a n, e ≠ .aborted a n) → e.status ≠ "resource_exhausted" →
    e.status = "completed" ∧ m'.exec = [] ∧ (m'.steps : Int) < o.stepLimit

/-- A reference that does not resolve ends the evaluation where it is popped. -/
theorem Evaluates.eq_of_nextRefers {o : Options} {m m' p : Machine ρ} {ps : List (Machine ρ)} {e : Ending} {a : Abort}
    {token stack operation : String} {rest : Stack Tree} (h : Evaluates o m ps e m') (hp : p ∈ ps)
    (hn : p.NextRefers token stack operation rest) (hr : o.resolve stack operation token = .error a) :
    e = .aborted a (p.steps + 1) ∧ m' = { p with exec := rest, steps := p.steps + 1 } :=
  h.eq_of_abort hp (step_eq_abort_iff.2 ⟨token, stack, operation, rest, hn, hr, rfl⟩)

theorem Evaluates.status_eq_unknownStack_iff {o : Options} {m m' : Machine ρ} {ps : List (Machine ρ)} {e : Ending}
    (h : Evaluates o m ps e m') : e.status = "unknown_stack" ↔ PopsUnknownStack o ps := by
  constructor
  · intro he
    obtain ⟨stack, token, n, rfl⟩ : ∃ stack token n, e = .aborted (.unknownStack stack token) n := by
      revert he; unfold Ending.status; split <;> simp
    obtain ⟨p, hp, hs⟩ := h.exists_abort
    obtain ⟨token', stack', operation, rest, hn, hr, -⟩ := step_eq_abort_iff.1 hs
    rcases (o.resolve_eq_error_iff _ _ _ _).1 hr with ⟨hno, -⟩ | ⟨-, -, ha⟩
    · exact ⟨p, hp, token', stack', operation, rest, hn, hno⟩
    · cases ha
  · rintro ⟨p, hp, token, stack, operation, rest, hn, hno⟩
    have hr := (o.resolve_eq_error_iff stack operation token _).2 (.inl ⟨hno, rfl⟩)
    rw [(h.eq_of_nextRefers hp hn hr).1]
    rfl

theorem Evaluates.status_eq_unknownInstruction_iff {o : Options} {m m' : Machine ρ} {ps : List (Machine ρ)}
    {e : Ending} (h : Evaluates o m ps e m') : e.status = "unknown_instruction" ↔ PopsUnknownInstruction o ps := by
  constructor
  · intro he
    obtain ⟨stack, operation, token, n, rfl⟩ :
        ∃ stack operation token n, e = .aborted (.unknownInstruction stack operation token) n := by
      revert he; unfold Ending.status; split <;> simp
    obtain ⟨p, hp, hs⟩ := h.exists_abort
    obtain ⟨token', stack', operation', rest, hn, hr, -⟩ := step_eq_abort_iff.1 hs
    rcases (o.resolve_eq_error_iff _ _ _ _).1 hr with ⟨-, ha⟩ | ⟨hst, hno, -⟩
    · cases ha
    · exact ⟨p, hp, token', stack', operation', rest, hn, hst, hno⟩
  · rintro ⟨p, hp, token, stack, operation, rest, hn, hst, hno⟩
    have hr := (o.resolve_eq_error_iff stack operation token _).2 (.inr ⟨hst, hno, rfl⟩)
    rw [(h.eq_of_nextRefers hp hn hr).1]
    rfl

theorem Evaluates.accounted {o : Options} {m m' : Machine ρ} {ps : List (Machine ρ)} {e : Ending}
    (h : Evaluates o m ps e m') (hm : m.steps ≤ o.stepLimit) : Accounted o m ps e m' where
  items_le := by
    have h₁ := h.steps_eq
    have h₂ := h.steps_le hm
    omega
  steps_eq := h.steps_eq
  steps_lt := h.steps_lt
  steps_le := h.steps_le hm
  counted := h.ending_steps
  reported := by
    rintro limit steps rfl
    rcases h.eq_of_not_aborted hm (fun a n => by simp) with ⟨he, -⟩ | ⟨he, -⟩
    · cases he; exact ⟨rfl, rfl⟩
    · cases he
  unknownStack := h.status_eq_unknownStack_iff
  unknownInstruction := h.status_eq_unknownInstruction_iff
  aborted := fun p hp token stack operation rest hn hno => by
    by_cases hst : o.HasStack stack
    · have hr := (o.resolve_eq_error_iff stack operation token _).2 (.inr ⟨hst, hno, rfl⟩)
      obtain ⟨he, hm'⟩ := h.eq_of_nextRefers hp hn hr
      exact ⟨⟨_, he, rfl⟩, hm'⟩
    · have hr := (o.resolve_eq_error_iff stack operation token _).2 (.inl ⟨hst, rfl⟩)
      obtain ⟨he, hm'⟩ := h.eq_of_nextRefers hp hn hr
      exact ⟨⟨_, he, rfl⟩, hm'⟩
  exhausted := fun hn => by
    rcases h.eq_of_not_aborted hm hn with ⟨rfl, hs⟩ | ⟨rfl, -, hs⟩
    · exact ⟨fun _ => hs, fun _ => rfl⟩
    · exact ⟨fun he => absurd he (by simp [Ending.status]), fun he => by omega⟩
  completed := fun hn hne => by
    rcases h.eq_of_not_aborted hm hn with ⟨rfl, -⟩ | ⟨rfl, he, hs⟩
    · exact absurd rfl hne
    · exact ⟨rfl, he, hs⟩

/-- A text that is not balanced runs nothing. -/
theorem run_of_parse_error {o : Options} {text : String} {err : ParseError} (h : Tree.parse text = .error err)
    (m : Machine ρ) : m.run o text = (.error err, m) := by
  simp only [run, h]

/-- **How a run ends.**  The machine that a session leaves has not counted past the limit.  From any machine that has
not, a run of a tree that no fault ends is an evaluation by the rules, and is accounted for.  A text that does not parse
leaves the machine as it is. -/
theorem ending_of_runCode (o : Options) (hv : o.Valid) :
    (∀ (source : ρ) (ops : List Operation), ((initial source).performAll o ops).steps ≤ o.stepLimit) ∧
    (∀ (m m' : Machine ρ) (t : Tree) (e : Ending), m.steps ≤ o.stepLimit → m.runCode o t = (.ok e, m') →
      ∃ ps, Evaluates o (m.load t) ps e m' ∧ Accounted o (m.load t) ps e m') ∧
    (∀ (m : Machine ρ) (text : String) (err : ParseError), Tree.parse text = .error err →
      m.run o text = (.error err, m)) := by
  have hl : 1 ≤ o.stepLimit := hv.one_le (f := .stepLimit) (by decide)
  refine ⟨performAll_steps_le (by omega), fun m m' t e hm hr => ?_, fun m text err h => run_of_parse_error h m⟩
  obtain ⟨ps, hps⟩ := (runCode_eq_ok_iff o m m' t e).1 hr
  exact ⟨ps, hps, hps.accounted hm⟩

/-- A program of three items, the last of which refers to no stack, aborts on the last step that is allowed. -/
theorem ending_of_runCode_unknown :
    ({ stepLimit := 4 } : Options).Valid ∧
    ∃ ps, Evaluates { stepLimit := 4 }
        ((initial (Twister.ofSeed 0)).load (.list [.atom "true", .atom "boolean.not", .atom "foo.bar"])) ps
        (.aborted (.unknownStack "foo" "foo.bar") 4) { initial (Twister.ofSeed 0) with boolean := [false], steps := 4 } ∧
      Accounted { stepLimit := 4 }
        ((initial (Twister.ofSeed 0)).load (.list [.atom "true", .atom "boolean.not", .atom "foo.bar"])) ps
        (.aborted (.unknownStack "foo" "foo.bar") 4) { initial (Twister.ofSeed 0) with boolean := [false], steps := 4 } :=
  ⟨rfl, (ending_of_runCode { stepLimit := 4 } rfl).2.1 (initial (Twister.ofSeed 0)) _
    (.list [.atom "true", .atom "boolean.not", .atom "foo.bar"]) _ (by decide) rfl⟩

end Machine
end PushMachine
