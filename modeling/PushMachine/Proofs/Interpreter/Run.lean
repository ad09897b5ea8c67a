import PushMachine.Interpreter.Run
import PushMachine.Proofs.Interpreter.Instruction
import PushMachine.Proofs.Origin
/-!
# Steps and runs on an interpreter

A step does to an interpreter what it does to the machine, and then traces it (`Machine.step_interpreter`).  Nothing is
ever put on a stack that is not there, so what is left is the interpreter of a machine again.
-/
namespace PushMachine

variable {ρ : Type} {o : Options}

open Effect

/-! ## References -/

theorem Options.find?_registry (o : Options) (k : Kind) (operation : String) :
    (o.registry k).find? operation
      = if o.instructionEnabled k.label operation then Instruction.find? k operation else none := by
  rw [Registry.find?, registry, List.find?_filter]
  have hsame : ∀ e : String × Instruction,
      decide (o.instructionEnabled k.label e.1 = true ∧ (e.1 == operation) = true)
        = (o.instructionEnabled k.label operation && e.1 == operation) := by
    intro e
    by_cases he : e.1 = operation <;> simp [he]
  simp only [hsame]
  cases o.instructionEnabled k.label operation with
  | true => rfl
  | false => simp

/-- A reference means to an interpreter what it means under its options. -/
theorem Machine.resolve_interpreter (o : Options) (m : Machine ρ) (stack operation token : String) :
    (m.interpreter o).resolve o stack operation token = o.resolve stack operation token := by
  rw [Interpreter.resolve, Options.resolve]
  cases hk : Kind.ofLabel? stack with
  | none => rfl
  | some k =>
    have hlabel := Kind.ofLabel?_eq_some hk
    rw [Option.filter_some, m.has_interpreter]
    dsimp only
    cases o.enables k with
    | false => rfl
    | true =>
      simp only [if_true, Bool.not_true, Bool.false_eq_true, if_false, Options.find?_registry, hlabel]
      cases Instruction.find? k operation <;> cases o.instructionEnabled stack operation <;> rfl

/-! ## Nothing is put where no stack is -/

namespace Machine

section Vacant

variable {m : Machine ρ}

theorem Vacant.congr (h : m.Vacant o) {m' : Machine ρ} (hs : m'.toStacks = m.toStacks) : m'.Vacant o := fun k hk => by
  rw [stack, hs]
  exact h k hk

theorem Vacant.setStack (h : m.Vacant o) {k : Kind} (hk : o.enables k = true) (xs : Stack k.Item) :
    (m.setStack k xs).Vacant o := fun j hj => by
  have hne : j ≠ k := fun he => by rw [he, hk] at hj; cases hj
  rw [m.stack_setStack_of_ne hne]
  exact h j hj

theorem vacant_initial (o : Options) (source : ρ) : (initial source).Vacant o := fun k _ => by cases k <;> rfl

theorem Vacant.flush (_ : m.Vacant o) : m.flush.Vacant o := fun k _ => by cases k <;> rfl

theorem Vacant.load (h : m.Vacant o) (t : Tree) : (m.load t).Vacant o :=
  h.setStack (k := .exec) o.enables_exec (t :: m.exec)

theorem Vacant.popped (h : m.Vacant o) (rest : Stack Tree) : (m.popped rest).Vacant o :=
  (h.setStack (k := .exec) o.enables_exec rest).congr rfl

theorem Vacant.start (h : m.Vacant o) (t : Tree) : (m.start o t).Vacant o := by
  have hreset : m.reset.Vacant o := h.congr rfl
  unfold Machine.start
  dsimp only
  split
  · rename_i hc
    exact hreset.setStack (k := .code) (Bool.and_eq_true_iff.1 hc).2 (t :: m.reset.code)
  · exact hreset

theorem Vacant.finish (h : m.Vacant o) : (m.finish o).Vacant o := by
  unfold Machine.finish
  split
  · rename_i hc
    exact h.setStack (k := .code) (Bool.and_eq_true_iff.1 hc).2 m.code.tail
  · exact h

theorem Vacant.pushEnabled (h : m.Vacant o) (k : Kind) (x : k.Item) : (m.pushEnabled o k x).Vacant o := by
  unfold Machine.pushEnabled
  split
  · rename_i hk
    exact h.setStack hk (x :: m.stack k)
  · exact h

theorem Vacant.executeName (h : m.Vacant o) (name : String) : (m.executeName o name).Vacant o := by
  have hquoted : Vacant o { m with quoting := false } := h.congr rfl
  rw [Machine.executeName]
  split
  · exact hquoted.pushEnabled .name name
  · split
    · exact h.load _
    · exact h.pushEnabled .name name

/-- **With everything there that it asks for, all stacks that an allowed instruction uses are there.** -/
theorem enables_of_mem_uses {i : Instruction} (ha : o.allows i = true) (h : (m.interpreter o).Meets i.needs) :
    ∀ k ∈ i.uses, o.enables k = true := by
  intro k hk
  rcases List.mem_append.1 hk with hk | hk
  · rcases List.mem_cons.1 hk with rfl | hk
    · exact (Bool.and_eq_true_iff.1 ha).1
    · obtain ⟨p, hp, rfl⟩ := List.mem_map.1 hk
      exact (stackOk_iff.1 (h p hp)).1
  · split at hk
    · rw [List.mem_singleton.1 hk]
      exact o.enables_exec
    · cases hk

variable [RandomSource ρ]

theorem Vacant.run (h : m.Vacant o) {i : Instruction} (ha : o.allows i = true) : (i.run o m).machine.Vacant o := by
  by_cases hn : (m.interpreter o).Meets i.needs
  · intro k hk
    -- the instruction does not use the stack, so it is as empty as before
    have hmem : k ∉ i.uses := fun hmem => by rw [enables_of_mem_uses ha hn k hmem] at hk; cases hk
    rw [Instruction.stack_run hmem]
    exact h k hk
  · rw [Instruction.run_of_not_meets h hn]
    exact h

theorem Vacant.execute (h : m.Vacant o) (t : Tree) : (m.execute o t).machine.Vacant o :=
  execute_induction h (fun items => h.setStack (k := .exec) o.enables_exec (items ++ m.exec)) h.pushEnabled h.executeName
    (fun _ ha => h.run ha) t

theorem Vacant.step (h : m.Vacant o) {out : Outcome Stop ρ} (hs : m.step o = some out) : out.machine.Vacant o := by
  obtain ⟨t, rest, -, rfl, -⟩ := step_origin hs
  exact (h.popped rest).execute t

end Vacant
end Machine

/-! ## One item -/

/-- What stops a machine stops its interpreter. -/
def Stop.halt : Stop → Halt
  | .abort a => .abort a
  | .fault f => .fault f

/-- What tracing makes of an outcome: it stops an interpreter that holds an integer too long to be written. -/
def Outcome.traced (o : Options) : Outcome Stop ρ → Except Halt Unit × Interpreter ρ
  | .next m       =>
    if o.tracing && !m.integer.all Number.isWritable then (.error (.fault .integerTooLong), m.interpreter o)
    else (.ok (), m.interpreter o)
  | .stop cause m => (.error cause.halt, m.interpreter o)

namespace Machine

variable {m : Machine ρ}

theorem executeName_interpreter (o : Options) (m : Machine ρ) (name : String) :
    Interpreter.executeName name (m.interpreter o) = (.ok (), (m.executeName o name).interpreter o) := by
  have hquoting : (m.interpreter o).quoting = m.quoting := rfl
  have hbindings : (m.interpreter o).bindings = m.bindings := rfl
  rw [Interpreter.executeName, Machine.executeName, hquoting, hbindings]
  split
  · exact offer_interpreter { m with quoting := false } (k := .name) name
  · cases m.bindings.lookup name with
    | some t => exact give_interpreter (k := .exec) o.enables_exec m t
    | none => exact offer_interpreter m (k := .name) name

theorem trace_interpreter (h : m.Vacant o) : Interpreter.trace o (m.interpreter o) = Outcome.traced o (.next m) := by
  have hitems : (m.interpreter o).integer.getD [] = m.integer :=
    ((m.interpreter o).stack_machine .integer).symm.trans (by rw [h.machine_interpreter]; rfl)
  rw [Interpreter.trace, Outcome.traced, hitems]
  rfl

variable [RandomSource ρ]

theorem execute_interpreter (h : m.Vacant o) (t : Tree) :
    Interpreter.execute o t (m.interpreter o) = (m.execute o t).result Stop.halt o := by
  cases t with
  | list items => exact update_interpreter (k := .exec) o.enables_exec m (items ++ ·)
  | atom token =>
    rw [Interpreter.execute, Machine.execute]
    cases Token.classify token with
    | error f => rfl
    | ok meaning =>
      cases meaning with
      | integer n => exact offer_interpreter m (k := .integer) n
      | float x => exact offer_interpreter m (k := .float) x
      | boolean b => exact offer_interpreter m (k := .boolean) b
      | name name => exact m.executeName_interpreter o name
      | instruction stack operation =>
        dsimp only
        rw [m.resolve_interpreter]
        cases hr : o.resolve stack operation token with
        | error a => rfl
        | ok i =>
          obtain ⟨hi, -, -, ha⟩ := Options.resolve_eq_ok hr
          dsimp only
          rw [Instruction.act_interpreter h hi ha]
          cases i.run o m <;> rfl

/-- **A step does to an interpreter what it does to the machine**, and traces what is left. -/
theorem step_interpreter (h : m.Vacant o) : (m.interpreter o).step o = (m.step o).map (Outcome.traced o) := by
  have hget : (m.interpreter o).get? .exec = some m.exec := (m.get?_interpreter o .exec).trans (if_pos o.enables_exec)
  rw [Interpreter.step, hget]
  cases he : m.exec with
  | nil =>
    rw [step_eq_none_iff.2 he]
    rfl
  | cons t rest =>
    have hput : (m.interpreter o).popped rest = (m.popped rest).interpreter o := by
      rw [Interpreter.popped, put_interpreter o.enables_exec]
      rfl
    rw [step_of_exec he, Option.map_some]
    refine congrArg some ?_
    rw [hput, show { m with exec := rest, steps := m.steps + 1 } = m.popped rest from rfl]
    have hexec := execute_interpreter (h.popped rest) t
    have hleft := (h.popped rest).execute t
    generalize (m.popped rest).execute o t = out at hexec hleft
    cases out with
    | next m' => exact (bind_ok hexec).trans (trace_interpreter hleft)
    | stop cause m' => exact bind_error hexec

end Machine

end PushMachine
