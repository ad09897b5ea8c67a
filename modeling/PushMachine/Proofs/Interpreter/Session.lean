import PushMachine.Proofs.Interpreter.Course
/-!
# Sessions on an interpreter

What may be done to a machine may be done to an interpreter.  One that has the stacks of its options has them still
after every operation (`Keeps.perform`), and none halts for want of a stack or an item (`Fits.perform_eq_error`).  Where
nothing is traced, a session leaves the interpreter of the machine that it leaves (`performAll_build`).
-/
namespace PushMachine

variable {ρ : Type} [RandomSource ρ] {o : Options}

open Effect

theorem Machine.kept_vacant (o : Options) : Kept o (Vacant (ρ := ρ) o) where
  step _ _ h hs := h.step hs
  execute _ t h := h.execute t
  load _ t h := h.load t
  start _ t h := h.start t
  finish _ h := h.finish
  reset _ h := h.congr rfl
  flush _ h := h.flush
  define _ _ _ h := h.congr rfl

namespace Interpreter

/-! ## Operations -/

/-- What an operation does to an interpreter. -/
def perform (o : Options) : Operation → Effect ρ Unit
  | .run text      =>
    match Tree.parse text with
    | .error _ => return
    | .ok t    => do let _ ← runTree o t
  | .runTree t     => do let _ ← runTree o t
  | .runCode t     => do let _ ← runCode o t
  | .execute t     => execute o t
  | .reset         => modify reset
  | .flush         => modify flush
  | .define name t => modify (·.define name t)

/-- **The interpreter after a session**, however its operations ended. -/
def performAll (o : Options) (it : Interpreter ρ) (ops : List Operation) : Interpreter ρ :=
  ops.foldl (fun it op => (perform o op it).2) it

/-- The interpreter after a session of runs. -/
def runAll (o : Options) (it : Interpreter ρ) (texts : List String) : Interpreter ρ :=
  texts.foldl (fun it text => (it.run o text).2) it

/-- The interpreters at which an operation pops an item. -/
def performPops (o : Options) (it : Interpreter ρ) : Operation → List (Interpreter ρ)
  | .run text  => it.runPops o text
  | .runTree t => it.treePops o t
  | .runCode t => it.codePops o t
  | .execute _ | .reset | .flush | .define _ _ => []

omit [RandomSource ρ] in
/-- What is done for its effect halts as it does otherwise, and leaves what it does otherwise. -/
theorem discard_eq {α : Type} (act : Effect ρ α) (it : Interpreter ρ) :
    (do let _ ← act : Effect ρ Unit) it = ((act it).1.map fun _ => (), (act it).2) := by
  rcases hact : act it with ⟨_ | a, it'⟩
  · rw [bind_error hact]
    rfl
  · rw [bind_ok hact]
    rfl

omit [RandomSource ρ] in
theorem discard_eq_error {α : Type} {act : Effect ρ α} {it : Interpreter ρ} {halt : Halt} :
    ((do let _ ← act : Effect ρ Unit) it).1 = .error halt ↔ (act it).1 = .error halt := by
  rw [discard_eq]
  cases (act it).1 <;> simp [Except.map]

section Operation

variable {P : Machine ρ → Prop} {m : Machine ρ} {it : Interpreter ρ}

/-! ## What operations keep -/

theorem Keeps.execute (hP : Machine.Kept o P) (h : it.Keeps o P) (t : Tree) : (execute o t it).2.Keeps o P := by
  rw [← h.fits.interpreter_machine, Machine.execute_interpreter h.fits.vacant]
  have hleft := h.fits.vacant.execute t
  have hkept := hP.execute _ t h.state
  generalize it.machine.execute o t = out at hleft hkept
  cases out <;> exact keeps_interpreter hleft hkept

theorem Keeps.runTree (hP : Machine.Kept o P) (h : it.Keeps o P) (t : Tree) :
    (∀ p ∈ it.treePops o t, p.Keeps o P) ∧ (runTree o t it).2.Keeps o P :=
  runTree_keeps hP.step hP.finish h.fits (hP.load _ t (hP.start _ t h.state))

/-- **What is kept is kept by every operation**, and at every interpreter at which it pops an item. -/
theorem Keeps.perform (hP : Machine.Kept o P) (h : it.Keeps o P) (op : Operation) :
    (∀ p ∈ it.performPops o op, p.Keeps o P) ∧ (perform o op it).2.Keeps o P := by
  have hmodified : ∀ m' : Machine ρ, m'.Vacant o → P m' → (m'.interpreter o).Keeps o P := fun _ => keeps_interpreter
  cases op with
  | run text =>
    rw [performPops, runPops, Interpreter.perform]
    cases Tree.parse text with
    | error e => exact ⟨List.forall_mem_nil _, h⟩
    | ok t =>
      dsimp only
      rw [discard_eq]
      exact h.runTree hP t
  | runTree t =>
    rw [Interpreter.perform, discard_eq]
    exact h.runTree hP t
  | runCode t =>
    rw [Interpreter.perform, discard_eq]
    exact runCode_keeps hP.step h.fits (hP.load _ t h.state)
  | execute t => exact ⟨List.forall_mem_nil _, h.execute hP t⟩
  | reset =>
    refine ⟨List.forall_mem_nil _, ?_⟩
    rw [← h.fits.interpreter_machine]
    exact hmodified it.machine.reset (h.fits.vacant.congr rfl) (hP.reset _ h.state)
  | flush =>
    refine ⟨List.forall_mem_nil _, ?_⟩
    rw [← h.fits.interpreter_machine]
    show (it.machine.interpreter o).flush.Keeps o P
    rw [flush_interpreter]
    exact hmodified it.machine.flush h.fits.vacant.flush (hP.flush _ h.state)
  | define name t =>
    refine ⟨List.forall_mem_nil _, ?_⟩
    rw [← h.fits.interpreter_machine]
    exact hmodified (it.machine.define name t) (h.fits.vacant.congr rfl) (hP.define _ name t h.state)

theorem Keeps.performAll (hP : Machine.Kept o P) : ∀ (ops : List Operation) {it : Interpreter ρ}, it.Keeps o P →
    (it.performAll o ops).Keeps o P
  | [],        _, h => h
  | op :: ops, _, h => Keeps.performAll hP ops (h.perform hP op).2

omit [RandomSource ρ] in
theorem keeps_build (o : Options) (source : ρ) (h : P (.initial source)) : (build o source).Keeps o P := by
  rw [build_eq]
  exact keeps_interpreter (Machine.vacant_initial o source) h

/-- **No operation changes which stacks are there.** -/
theorem Fits.perform (h : it.Fits o) (op : Operation) : (perform o op it).2.Fits o :=
  (Keeps.perform (Machine.kept_true o) ⟨h, trivial⟩ op).2.fits

/-! ## Halts -/

theorem Fits.runCode_eq_error (h : it.Fits o) {t : Tree} {halt : Halt} (hr : (runCode o t it).1 = .error halt) :
    ∃ f, halt = .fault f := by
  rw [← h.interpreter_machine, runCode_interpreter] at hr
  exact (Machine.fits_interpreter o _).loop_eq_error hr

theorem Fits.runTree_eq_error (h : it.Fits o) {t : Tree} {halt : Halt} (hr : (runTree o t it).1 = .error halt) :
    ∃ f, halt = .fault f :=
  (Machine.fits_interpreter o _).loop_eq_error (h.runTree_eq_error_iff.1 hr)

/-- **No operation looks up a stack that is not there**, nor takes an item that is not there. -/
theorem Fits.perform_eq_error (h : it.Fits o) {op : Operation} {halt : Halt}
    (hp : (Interpreter.perform o op it).1 = .error halt) : ∃ stop : Stop, halt = stop.halt := by
  have hfault : (∃ f, halt = .fault f) → ∃ stop : Stop, halt = stop.halt := fun ⟨f, hf⟩ => ⟨.fault f, hf⟩
  cases op with
  | run text =>
    rw [Interpreter.perform] at hp
    cases ht : Tree.parse text with
    | error e => rw [ht] at hp; cases hp
    | ok t =>
      rw [ht] at hp
      exact hfault (h.runTree_eq_error (discard_eq_error.1 hp))
  | runTree t => exact hfault (h.runTree_eq_error (discard_eq_error.1 hp))
  | runCode t => exact hfault (h.runCode_eq_error (discard_eq_error.1 hp))
  | execute t =>
    rw [Interpreter.perform, ← h.interpreter_machine, Machine.execute_interpreter h.vacant] at hp
    cases hout : it.machine.execute o t with
    | next m => rw [hout] at hp; cases hp
    | stop cause m =>
      rw [hout] at hp
      cases hp
      exact ⟨cause, rfl⟩
  | reset | flush | define => cases hp

/-! ## Without a trace -/

omit [RandomSource ρ] in
theorem traced_of_not_tracing (ho : o.tracing = false) (out : Outcome Stop ρ) :
    out.traced o = out.result Stop.halt o := by
  cases out with
  | next m => rw [Outcome.traced, ho]; rfl
  | stop cause m => rfl

/-- What is left of an evaluation of a machine, for an interpreter. -/
def ended (o : Options) (r : Except Fault Ending × Machine ρ) : Except Halt Ending × Interpreter ρ :=
  (r.1.mapError .fault, r.2.interpreter o)

theorem loop_interpreter (ho : o.tracing = false) : ∀ (n : Nat) {m : Machine ρ}, m.Vacant o →
    loop o n (m.interpreter o) = ended o (Machine.loop o n m)
  | 0,     _, _ => rfl
  | n + 1, m, hm => by
    have hstep := Machine.step_interpreter hm
    rw [loop, Machine.loop, hstep]
    cases hs : m.step o with
    | none => rfl
    | some out =>
      rw [Option.map_some, traced_of_not_tracing ho]
      cases out with
      | next m₁ => exact loop_interpreter ho n (hm.step hs)
      | stop cause m₁ => cases cause <;> rfl

theorem runCode_eq (ho : o.tracing = false) (hm : m.Vacant o) (t : Tree) :
    runCode o t (m.interpreter o) = ended o (m.runCode o t) :=
  (runCode_interpreter m t).trans (loop_interpreter ho _ (hm.load t))

theorem runTree_eq (ho : o.tracing = false) (hm : m.Vacant o) (t : Tree) :
    runTree o t (m.interpreter o) = ended o (m.runTree o t) := by
  have hrun := runCode_eq ho (hm.start t) t
  rw [runTree, bind_ok (start_interpreter m t), Machine.runTree]
  generalize (m.start o t).runCode o t = r at hrun
  obtain ⟨_ | e, m₁⟩ := r
  · exact bind_error hrun
  · exact (bind_ok hrun).trans (bind_ok (finish_interpreter m₁))

/-- **Where nothing is traced, a run does to an interpreter what it does to the machine.** -/
theorem run_interpreter (ho : o.tracing = false) (hm : m.Vacant o) (text : String) :
    (m.interpreter o).run o text = ((m.run o text).1.map fun r => r.mapError .fault, (m.run o text).2.interpreter o) := by
  rw [Interpreter.run, Machine.run]
  cases Tree.parse text with
  | error e => rfl
  | ok t =>
    dsimp only
    rw [runTree_eq ho hm]
    rfl

theorem perform_interpreter (ho : o.tracing = false) (hm : m.Vacant o) (op : Operation) :
    (Interpreter.perform o op (m.interpreter o)).2 = (m.perform o op).interpreter o := by
  cases op with
  | run text =>
    rw [Interpreter.perform, Machine.perform, Machine.run]
    cases Tree.parse text with
    | error e => rfl
    | ok t =>
      dsimp only
      rw [discard_eq, runTree_eq ho hm]
      rfl
  | runTree t =>
    rw [Interpreter.perform, discard_eq, runTree_eq ho hm]
    rfl
  | runCode t =>
    rw [Interpreter.perform, discard_eq, runCode_eq ho hm]
    rfl
  | execute t =>
    rw [Interpreter.perform, Machine.execute_interpreter hm, Machine.perform]
    cases m.execute o t <;> rfl
  | reset | define => rfl
  | flush => exact flush_interpreter m

theorem performAll_interpreter (ho : o.tracing = false) : ∀ (ops : List Operation) {m : Machine ρ}, m.Vacant o →
    (m.interpreter o).performAll o ops = (m.performAll o ops).interpreter o
  | [],        _, _ => rfl
  | op :: ops, m, hm => by
    have hleft : (m.perform o op).Vacant o := (Machine.kept_vacant o).perform hm op
    show ((Interpreter.perform o op (m.interpreter o)).2).performAll o ops = _
    rw [perform_interpreter ho hm]
    exact performAll_interpreter ho ops hleft

/-- **Where nothing is traced, a session leaves a new interpreter as it leaves the machine.** -/
theorem performAll_build (ho : o.tracing = false) (source : ρ) (ops : List Operation) :
    (build o source).performAll o ops = ((Machine.initial source).performAll o ops).interpreter o := by
  rw [build_eq]
  exact performAll_interpreter ho ops (Machine.vacant_initial o source)

end Operation

end Interpreter
end PushMachine
