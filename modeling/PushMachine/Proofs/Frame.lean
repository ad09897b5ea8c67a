import PushMachine.Machine.Run
import PushMachine.Proofs.Form
/-!
# What instructions leave alone

Beside its stacks a machine has bindings, the flag that protects a name, the count of steps and a supply of random
values.  An instruction touches the bindings only if it is a `define`, the flag only if it is `name.quote`, and the
supply only if it draws; none of them touches the count, so only `Machine.step` counts (`Instruction.run_frame`).
-/
namespace PushMachine

variable {ρ : Type}

namespace Instruction

/-- The instructions that bind a name. -/
def binds : Instruction → Bool
  | .stack _ .define => true
  | _                => false

/-- The instruction that protects the next name. -/
def protects : Instruction → Bool
  | .name .quote => true
  | _            => false

/-- The instructions that draw from the random source. -/
def draws : Instruction → Bool
  | .integer .rand | .float .rand | .boolean .rand | .name .rand | .name .randBoundName | .code .rand => true
  | _ => false

end Instruction

/-- Nothing but the stacks differs. -/
structure Machine.Quiet (m m' : Machine ρ) : Prop where
  bindings : m'.bindings = m.bindings
  quoting  : m'.quoting = m.quoting
  steps    : m'.steps = m.steps
  supply   : m'.supply = m.supply

/-- **What an instruction may change beside the stacks.** -/
structure Instruction.Frame (i : Instruction) (m m' : Machine ρ) : Prop where
  bindings : i.binds = false → m'.bindings = m.bindings
  quoting  : i.protects = false → m'.quoting = m.quoting
  steps    : m'.steps = m.steps
  supply   : i.draws = false → m'.supply = m.supply

namespace Machine.Quiet

theorem refl (m : Machine ρ) : m.Quiet m := ⟨rfl, rfl, rfl, rfl⟩

theorem frame {m m' : Machine ρ} (h : m.Quiet m') (i : Instruction) : i.Frame m m' :=
  ⟨fun _ => h.bindings, fun _ => h.quoting, h.steps, fun _ => h.supply⟩

theorem setStack (m : Machine ρ) (k : Kind) (xs : Stack k.Item) : m.Quiet (m.setStack k xs) := ⟨rfl, rfl, rfl, rfl⟩

/-- Both forms touch stacks only. -/
theorem move (m : Machine ρ) {j k : Kind} (accepts : j.Item → Bool) (f : j.Item → k.Item) :
    m.Quiet (m.move j k accepts f) := by
  unfold Machine.move
  split
  · split
    · exact ⟨rfl, rfl, rfl, rfl⟩
    · exact .refl m
  · exact .refl m

theorem merge (m : Machine ρ) {j k : Kind} (accepts : j.Item → j.Item → Bool) (f : j.Item → j.Item → k.Item) :
    m.Quiet (m.merge j k accepts f) := by
  unfold Machine.merge
  split
  · split
    · exact ⟨rfl, rfl, rfl, rfl⟩
    · exact .refl m
  · exact .refl m

end Machine.Quiet

theorem Instruction.Frame.pushDrawn {i : Instruction} (hi : i.draws = true) (m : Machine ρ) {k : Kind} (x : k.Item)
    (supply : Supply ρ) : i.Frame m (m.pushDrawn k x supply) :=
  ⟨fun _ => rfl, fun _ => rfl, rfl, fun hn => by rw [hi] at hn; cases hn⟩

open Machine (Quiet)

/-! ## Stack manipulations -/

theorem StackOp.withDepth_quiet (k : Kind) (act : Int → Stack k.Item → Stack k.Item) (m : Machine ρ) :
    m.Quiet (withDepth k act m) := by
  unfold withDepth
  split
  · exact .refl m
  · dsimp only
    split
    · exact .refl m
    · exact ⟨rfl, rfl, rfl, rfl⟩

theorem StackOp.defineTop_frame (k : Kind) (m : Machine ρ) :
    (Instruction.stack k .define).Frame m (defineTop k m).machine := by
  unfold defineTop
  split
  · exact (Quiet.refl m).frame _
  · dsimp only
    split
    · exact (Quiet.refl m).frame _
    · split
      · exact ⟨fun h => (Bool.noConfusion h), fun _ => rfl, rfl, fun _ => rfl⟩
      · exact ⟨fun _ => rfl, fun _ => rfl, rfl, fun _ => rfl⟩

theorem StackOp.run_frame (o : Options) (k : Kind) (m : Machine ρ) (op : StackOp) :
    (Instruction.stack k op).Frame m (op.run o k m).machine := by
  cases op with
  | equal =>
    rw [run, equalTop_eq]
    exact (Quiet.merge (j := k) (k := .boolean) m _ _).frame _
  | define => exact defineTop_frame k m
  | dup | flush | pop | rot | swap => exact (Quiet.setStack m k _).frame _
  | stackdepth =>
    refine Quiet.frame ?_ _
    simp only [run, Outcome.machine]
    split
    · exact ⟨rfl, rfl, rfl, rfl⟩
    · exact .refl m
  | shove | yank | yankdup => exact (withDepth_quiet k _ m).frame _

/-! ## Literals -/

theorem FloatOp.ofInteger_quiet (m : Machine ρ) : m.Quiet (ofInteger m).machine := by
  unfold ofInteger
  split
  · split <;> exact ⟨rfl, rfl, rfl, rfl⟩
  · exact .refl m

section Literals

variable [RandomSource ρ]

theorem IntegerOp.run_frame (o : Options) (m : Machine ρ) (op : IntegerOp) :
    (Instruction.integer op).Frame m (op.run o m) := by
  cases op with
  | add | sub | mul | max | min => rw [run, binary_eq]; exact (Quiet.merge m _ _).frame _
  | div | mod => rw [run, divide_eq]; exact (Quiet.merge m _ _).frame _
  | less | greater => rw [run, compare_eq]; exact (Quiet.merge m _ _).frame _
  | fromBoolean => rw [run, ofBoolean_eq]; exact (Quiet.move m _ _).frame _
  | fromFloat => rw [run, ofFloat_eq]; exact (Quiet.move m _ _).frame _
  | rand =>
    obtain ⟨x, supply, he⟩ := exists_random_eq o m
    rw [run, he]
    exact .pushDrawn rfl m x supply

theorem FloatOp.run_frame (o : Options) (m : Machine ρ) (op : FloatOp) :
    (Instruction.float op).Frame m (op.run o m).machine := by
  cases op with
  | add | sub | mul | max | min => rw [run, binary_eq]; exact (Quiet.merge m _ _).frame _
  | div | mod => rw [run, divide_eq]; exact (Quiet.merge m _ _).frame _
  | less | greater => rw [run, compare_eq]; exact (Quiet.merge m _ _).frame _
  | sin | cos | tan => rw [run, unary_eq]; exact (Quiet.move m _ _).frame _
  | fromBoolean => rw [run, ofBoolean_eq]; exact (Quiet.move m _ _).frame _
  | fromInteger => exact (ofInteger_quiet m).frame _
  | rand =>
    obtain ⟨x, supply, he⟩ := exists_random_eq o m
    rw [run, he]
    exact .pushDrawn rfl m x supply

theorem BooleanOp.run_frame (m : Machine ρ) (op : BooleanOp) : (Instruction.boolean op).Frame m (op.run m) := by
  cases op with
  | and | or => rw [run, binary_eq]; exact (Quiet.merge m _ _).frame _
  | not => rw [run, negate_eq]; exact (Quiet.move m _ _).frame _
  | fromFloat => rw [run, ofFloat_eq]; exact (Quiet.move m _ _).frame _
  | fromInteger => rw [run, ofInteger_eq]; exact (Quiet.move m _ _).frame _
  | rand =>
    obtain ⟨x, supply, he⟩ := exists_random_eq m
    rw [run, he]
    exact .pushDrawn rfl m x supply

theorem NameOp.run_frame (m : Machine ρ) (op : NameOp) : (Instruction.name op).Frame m (op.run m).machine := by
  cases op with
  | quote => exact ⟨fun _ => rfl, fun h => (Bool.noConfusion h), rfl, fun _ => rfl⟩
  | rand =>
    rw [run, newName]
    split <;> exact ⟨fun _ => rfl, fun _ => rfl, rfl, fun h => (Bool.noConfusion h)⟩
  | randBoundName =>
    by_cases hb : 1 ≤ m.bindings.size
    · obtain ⟨x, supply, he⟩ := exists_boundName_eq hb
      rw [run, he]
      exact .pushDrawn rfl m x supply
    · rw [run, boundName_of_size_zero hb]
      exact (Quiet.refl m).frame _

end Literals

/-! ## Code -/

theorem ExecOp.range_quiet (o : Options) (m : Machine ρ) : m.Quiet (range o m).machine := by
  unfold range
  split
  · split
    · exact ⟨rfl, rfl, rfl, rfl⟩
    · split
      · exact .refl m
      · split
        · exact ⟨rfl, rfl, rfl, rfl⟩
        · exact .refl m
  · exact .refl m

theorem ExecOp.countWith_quiet (o : Options) (wrapBody : Tree → Tree) (m : Machine ρ) :
    m.Quiet (countWith o wrapBody m).machine := by
  unfold countWith
  split
  · split
    · exact .refl m
    · split
      · exact .refl m
      · split
        · exact ⟨rfl, rfl, rfl, rfl⟩
        · exact .refl m
  · exact .refl m

theorem ExecOp.run_quiet (o : Options) (m : Machine ρ) (op : ExecOp) : m.Quiet (op.run o m).machine := by
  cases op with
  | choose => simp only [run, choice, Outcome.machine]; split <;> exact ⟨rfl, rfl, rfl, rfl⟩
  | k => rw [run, constant_eq]; exact .merge m _ _
  | s =>
    simp only [run, distribute, Outcome.machine]; split
    · split <;> exact ⟨rfl, rfl, rfl, rfl⟩
    · exact .refl m
  | y =>
    simp only [run, recur, Outcome.machine]; split
    · split <;> exact ⟨rfl, rfl, rfl, rfl⟩
    · exact .refl m
  | doRange => exact range_quiet o m
  | doCount | doTimes => exact countWith_quiet o _ m

theorem CodeOp.pickItem_quiet (m : Machine ρ) : m.Quiet (pickItem m) := by
  unfold pickItem; split <;> exact ⟨rfl, rfl, rfl, rfl⟩

theorem CodeOp.pushDefinition_quiet (m : Machine ρ) : m.Quiet (pushDefinition m) := by
  unfold pushDefinition
  split
  · split <;> exact ⟨rfl, rfl, rfl, rfl⟩
  · exact .refl m

theorem CodeOp.executeTop_quiet (m : Machine ρ) : m.Quiet (executeTop m) := by
  unfold executeTop; split <;> exact ⟨rfl, rfl, rfl, rfl⟩

theorem CodeOp.choice_quiet (m : Machine ρ) : m.Quiet (choice m) := by
  unfold choice; split <;> exact ⟨rfl, rfl, rfl, rfl⟩

theorem CodeOp.ofStack_quiet (k : Kind) (m : Machine ρ) : m.Quiet (ofStack k m).machine := by
  unfold ofStack
  split
  · exact .refl m
  · dsimp only; split <;> exact ⟨rfl, rfl, rfl, rfl⟩

theorem CodeOp.random_frame [RandomSource ρ] (o : Options) (m : Machine ρ) :
    (Instruction.code .rand).Frame m (random o m).machine := by
  unfold random
  split
  · exact (Quiet.refl m).frame _
  · split
    · exact (Quiet.refl m).frame _
    · split <;> exact ⟨fun _ => rfl, fun _ => rfl, rfl, fun h => (Bool.noConfusion h)⟩

theorem CodeOp.run_frame [RandomSource ρ] (o : Options) (m : Machine ρ) (op : CodeOp) :
    (Instruction.code op).Frame m (op.run o m).machine := by
  cases op with
  | append | cons | list => rw [run, binary_eq]; exact (Quiet.merge m _ _).frame _
  | car | cdr => rw [run, unary_eq]; exact (Quiet.move m _ _).frame _
  | atom | null => rw [run, test_eq]; exact (Quiet.move m _ _).frame _
  | member => rw [run, testMember_eq]; exact (Quiet.merge m _ _).frame _
  | length | size => rw [run, measure_eq]; exact (Quiet.move m _ _).frame _
  | nth => exact (pickItem_quiet m).frame _
  | definition => exact (pushDefinition_quiet m).frame _
  | doKeep => exact (executeTop_quiet m).frame _
  | doPop => rw [run, executePopped_eq]; exact (Quiet.move m _ _).frame _
  | choose => exact (choice_quiet m).frame _
  | quote => rw [run, quoteNext_eq]; exact (Quiet.move m _ _).frame _
  | noop => exact (Quiet.refl m).frame _
  | fromBoolean | fromFloat | fromInteger | fromName => exact (ofStack_quiet _ m).frame _
  | rand => exact random_frame o m

/-! ## All instructions -/

section Execution

variable [RandomSource ρ]

/-- **Beside the stacks, an instruction changes only what its own kind is for.** -/
theorem Instruction.run_frame (o : Options) (m : Machine ρ) (i : Instruction) : i.Frame m (i.run o m).machine := by
  cases i with
  | stack k op => exact op.run_frame o k m
  | integer op => exact op.run_frame o m
  | float op   => exact op.run_frame o m
  | boolean op => exact op.run_frame m
  | name op    => exact op.run_frame m
  | exec op    => exact (op.run_quiet o m).frame _
  | code op    => exact op.run_frame o m

/-- Executing an item does not count it. -/
theorem Machine.execute_steps (o : Options) (m : Machine ρ) (t : Tree) : (m.execute o t).machine.steps = m.steps := by
  have hpush : ∀ (m : Machine ρ) (k : Kind) (x : k.Item), (m.pushEnabled o k x).steps = m.steps := fun m k x => by
    unfold pushEnabled; split <;> rfl
  cases t with
  | list items => rfl
  | atom token =>
    rw [execute]
    split
    · rfl
    · exact hpush m _ _
    · exact hpush m _ _
    · exact hpush m _ _
    · simp only [executeName, Outcome.machine]
      split
      · exact hpush _ _ _
      · split
        · rfl
        · exact hpush m _ _
    · split
      · rfl
      · rename_i i _
        have hi := (i.run_frame o m).steps
        split <;> (rename_i h; rw [h] at hi; exact hi)

end Execution
end PushMachine
