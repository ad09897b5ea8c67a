import PushMachine.Proofs.Call
import PushMachine.Proofs.Interpreter.Run
/-!
# The course of a run on an interpreter

A loop halts exactly as one of its steps does (`Interpreter.loop_eq_error_iff`), and that is never for want of a stack or
an item (`Interpreter.Fits.loop_eq_error`).  What every step of a machine keeps is kept at each interpreter at which an
item is popped, and at the end (`Interpreter.loop_keeps`).
-/
namespace PushMachine

open Effect

namespace Interpreter

variable {ρ : Type} {o : Options}

/-! ## Before and after a run -/

section Run

variable {m : Machine ρ}

theorem give_exec_interpreter (m : Machine ρ) (t : Tree) :
    give .exec t (m.interpreter o) = (.ok (), (m.load t).interpreter o) :=
  give_interpreter o.enables_exec m t

theorem start_interpreter (m : Machine ρ) (t : Tree) :
    start o t (m.interpreter o) = (.ok (), (m.start o t).interpreter o) := by
  have hreset : modify reset (m.interpreter o) = (.ok (), m.reset.interpreter o) := rfl
  rw [start, bind_ok hreset, bind_ok (read_has_interpreter o m.reset .code), Machine.start]
  split
  · rename_i hc
    exact give_interpreter (Bool.and_eq_true_iff.1 hc).2 m.reset t
  · rfl

theorem finish_interpreter (m : Machine ρ) : finish o (m.interpreter o) = (.ok (), (m.finish o).interpreter o) := by
  rw [finish, bind_ok (read_has_interpreter o m .code), Machine.finish]
  split
  · rename_i hc
    exact update_interpreter (Bool.and_eq_true_iff.1 hc).2 m List.tail
  · rfl

theorem flush_interpreter (m : Machine ρ) : (m.interpreter o).flush = m.flush.interpreter o := by
  have hrack : (m.toStacks.rack o).flush = m.flush.toStacks.rack o := by
    simp only [Rack.flush, Stacks.rack, Machine.flush]
    congr <;> split <;> rfl
  show Interpreter.mk (m.toStacks.rack o).flush _ _ _ _ = _
  rw [hrack]
  rfl

theorem Fits.finish_eq {it : Interpreter ρ} (h : it.Fits o) :
    finish o it = (.ok (), (it.machine.finish o).interpreter o) := by
  have hfinish := finish_interpreter (o := o) it.machine
  rwa [h.interpreter_machine] at hfinish

variable [RandomSource ρ]

theorem runCode_interpreter (m : Machine ρ) (t : Tree) :
    runCode o t (m.interpreter o) = loop o (m.budget o) ((m.load t).interpreter o) :=
  bind_ok (give_exec_interpreter m t)

/-- After a halt the interpreter is left as it is. -/
theorem runTree_interpreter (m : Machine ρ) (t : Tree) :
    runTree o t (m.interpreter o)
      = (do let e ← loop o ((m.start o t).budget o); finish o; return e) (((m.start o t).load t).interpreter o) := by
  rw [runTree, bind_ok (start_interpreter m t)]
  have hrun := runCode_interpreter (o := o) (m.start o t) t
  rcases hl : loop o ((m.start o t).budget o) (((m.start o t).load t).interpreter o) with ⟨_ | e, it⟩ <;>
    rw [hl] at hrun
  · rw [bind_error hrun, bind_error hl]
  · rw [bind_ok hrun, bind_ok hl]

end Run

variable [RandomSource ρ]

/-! ## Where an item is popped -/

/-- The interpreters at which an evaluation pops an item, as `loop` goes through them. -/
def pops (o : Options) : Nat → Interpreter ρ → List (Interpreter ρ)
  | 0,          _  => []
  | budget + 1, it =>
    match it.step o with
    | none                 => []
    | some (.ok (), it')   => it :: pops o budget it'
    | some (.error _, _)   => [it]

/-- The interpreters at which the run of a program pops an item. -/
def treePops (o : Options) (it : Interpreter ρ) (t : Tree) : List (Interpreter ρ) :=
  let loaded := (do start o t; give .exec t : Effect ρ Unit) it
  pops o (loaded.2.budget o) loaded.2

/-- The interpreters at which the run of a program text pops an item. -/
def runPops (o : Options) (it : Interpreter ρ) (text : String) : List (Interpreter ρ) :=
  match Tree.parse text with
  | .error _ => []
  | .ok t    => it.treePops o t

/-- The interpreters at which a tree that is run on top of EXEC pops an item. -/
def codePops (o : Options) (it : Interpreter ρ) (t : Tree) : List (Interpreter ρ) :=
  let loaded := give .exec t it
  pops o (loaded.2.budget o) loaded.2

/-- **A loop halts exactly as one of its steps does**, unless that aborts. -/
theorem loop_eq_error_iff (o : Options) (h : Halt) : ∀ (n : Nat) (it : Interpreter ρ),
    (loop o n it).1 = .error h ↔ (∀ a, h ≠ .abort a) ∧ ∃ p ∈ pops o n it, ∃ it', p.step o = some (.error h, it')
  | 0,     it => by simp [loop, pops]
  | n + 1, it => by
    rw [loop, pops]
    split
    · rename_i hs
      simp [hs]
    · rename_i it₁ hs
      simp only [loop_eq_error_iff o h n it₁, hs, List.mem_cons, exists_eq_or_imp, Option.some.injEq, Prod.mk.injEq,
        reduceCtorEq, false_and, exists_false, false_or]
    · rename_i a it₁ hs
      simp only [hs, reduceCtorEq, List.mem_singleton, exists_eq_left, Option.some.injEq, Prod.mk.injEq, Except.error.injEq,
        false_iff, not_and, not_exists]
      rintro hne it' rfl
      exact absurd rfl (hne a)
    · rename_i h' it₁ hne hs
      simp only [hs, Except.error.injEq, List.mem_singleton, exists_eq_left, Option.some.injEq, Prod.mk.injEq,
        exists_and_left, exists_eq']
      refine ⟨fun he => ⟨fun a ha => ?_, he, trivial⟩, fun he => he.2.1⟩
      exact hne a (he.trans ha)

/-! ## What is kept -/

/-- The interpreter has the stacks of its options, and the machine in its state has a property. -/
structure Keeps (o : Options) (P : Machine ρ → Prop) (it : Interpreter ρ) : Prop where
  fits  : it.Fits o
  state : P it.machine

section Keeps

variable {P : Machine ρ → Prop} {m : Machine ρ} {it : Interpreter ρ}

omit [RandomSource ρ] in
theorem keeps_interpreter (hm : m.Vacant o) (h : P m) : (m.interpreter o).Keeps o P :=
  ⟨m.fits_interpreter o, by rw [hm.machine_interpreter]; exact h⟩

theorem Keeps.step (hstep : ∀ p out, P p → p.step o = some out → P out.machine) (h : it.Keeps o P)
    {r : Except Halt Unit × Interpreter ρ} (hs : it.step o = some r) : r.2.Keeps o P := by
  rw [← h.fits.interpreter_machine, Machine.step_interpreter h.fits.vacant, Option.map_eq_some_iff] at hs
  obtain ⟨out, hout, rfl⟩ := hs
  have hleft : (Outcome.traced o out).2 = out.machine.interpreter o := by
    cases out with
    | next m => rw [Outcome.traced]; split <;> rfl
    | stop cause m => rfl
  rw [hleft]
  exact keeps_interpreter (h.fits.vacant.step hout) (hstep _ _ h.state hout)

/-- **What every step keeps holds wherever a loop pops an item, and where it ends.** -/
theorem loop_keeps (hstep : ∀ p out, P p → p.step o = some out → P out.machine) : ∀ (n : Nat) (it : Interpreter ρ),
    it.Keeps o P → (∀ p ∈ pops o n it, p.Keeps o P) ∧ (loop o n it).2.Keeps o P
  | 0,     it, h => ⟨List.forall_mem_nil _, h⟩
  | n + 1, it, h => by
    rw [pops, loop]
    cases hs : it.step o with
    | none => exact ⟨List.forall_mem_nil _, h⟩
    | some r =>
      have hr := h.step hstep hs
      obtain ⟨_ | ⟨⟩, it₁⟩ := r
      · rename_i halt
        refine ⟨List.forall_mem_singleton.2 h, ?_⟩
        cases halt <;> exact hr
      · obtain ⟨hpops, hend⟩ := loop_keeps hstep n it₁ hr
        exact ⟨List.forall_mem_cons.2 ⟨h, hpops⟩, hend⟩

theorem codePops_interpreter (m : Machine ρ) (t : Tree) :
    (m.interpreter o).codePops o t = pops o (m.budget o) ((m.load t).interpreter o) := by
  rw [codePops, give_exec_interpreter]
  rfl

theorem runCode_keeps (hstep : ∀ p out, P p → p.step o = some out → P out.machine) {t : Tree} (h : it.Fits o)
    (hload : P (it.machine.load t)) : (∀ p ∈ it.codePops o t, p.Keeps o P) ∧ (runCode o t it).2.Keeps o P := by
  rw [← h.interpreter_machine, codePops_interpreter, runCode_interpreter]
  exact loop_keeps hstep _ _ (keeps_interpreter (h.vacant.load t) hload)

theorem treePops_interpreter (m : Machine ρ) (t : Tree) :
    (m.interpreter o).treePops o t = pops o ((m.start o t).budget o) (((m.start o t).load t).interpreter o) := by
  have hload : (do start o t; give .exec t : Effect ρ Unit) (m.interpreter o)
      = (.ok (), ((m.start o t).load t).interpreter o) :=
    (bind_ok (start_interpreter m t)).trans (give_exec_interpreter _ t)
  rw [treePops, hload]
  rfl

theorem runTree_keeps (hstep : ∀ p out, P p → p.step o = some out → P out.machine)
    (hfinish : ∀ m, P m → P (m.finish o)) {t : Tree} (h : it.Fits o) (hstart : P ((it.machine.start o t).load t)) :
    (∀ p ∈ it.treePops o t, p.Keeps o P) ∧ (runTree o t it).2.Keeps o P := by
  obtain ⟨hpops, hend⟩ := loop_keeps hstep ((it.machine.start o t).budget o) _
    (keeps_interpreter ((h.vacant.start t).load t) hstart)
  rw [← h.interpreter_machine, treePops_interpreter, runTree_interpreter]
  refine ⟨hpops, ?_⟩
  rcases hl : loop o ((it.machine.start o t).budget o) (((it.machine.start o t).load t).interpreter o) with ⟨_ | e, it₁⟩ <;>
    rw [hl] at hend
  · rw [bind_error hl]
    exact hend
  · have hfits : it₁.Fits o := hend.fits
    rw [bind_ok hl, bind_ok hfits.finish_eq]
    exact keeps_interpreter hfits.vacant.finish (hfinish _ hend.state)

/-- The run of a tree halts exactly as its loop does. -/
theorem Fits.runTree_eq_error_iff (h : it.Fits o) {t : Tree} {halt : Halt} :
    (runTree o t it).1 = .error halt ↔
      (loop o ((it.machine.start o t).budget o) (((it.machine.start o t).load t).interpreter o)).1 = .error halt := by
  have hkeeps := (loop_keeps (P := fun _ => True) (fun _ _ _ _ => trivial) ((it.machine.start o t).budget o) _
    (keeps_interpreter ((h.vacant.start t).load t) trivial)).2
  conv_lhs => rw [← h.interpreter_machine, runTree_interpreter]
  rcases hl : loop o ((it.machine.start o t).budget o) (((it.machine.start o t).load t).interpreter o) with ⟨_ | e, it₁⟩ <;>
    rw [hl] at hkeeps
  · rw [bind_error hl]
  · rw [bind_ok hl, bind_ok hkeeps.fits.finish_eq]
    exact iff_of_false (fun hr => by cases hr) (fun hr => by cases hr)

theorem run_keeps (hstep : ∀ p out, P p → p.step o = some out → P out.machine)
    (hfinish : ∀ m, P m → P (m.finish o)) {text : String}
    (hstart : ∀ t, Tree.parse text = .ok t → P it.machine → P ((it.machine.start o t).load t)) (h : it.Keeps o P) :
    (∀ p ∈ it.runPops o text, p.Keeps o P) ∧ (it.run o text).2.Keeps o P := by
  rw [runPops, run]
  cases ht : Tree.parse text with
  | error e => exact ⟨List.forall_mem_nil _, h⟩
  | ok t => exact runTree_keeps hstep hfinish h.fits (hstart t ht h.state)

end Keeps

/-! ## Halts -/

/-- A step halts with an abort or a fault, never for want of a stack or an item. -/
theorem Fits.step_eq_error {it it' : Interpreter ρ} (h : it.Fits o) {halt : Halt}
    (hs : it.step o = some (.error halt, it')) : ∃ stop : Stop, halt = stop.halt := by
  rw [← h.interpreter_machine, Machine.step_interpreter h.vacant, Option.map_eq_some_iff] at hs
  obtain ⟨out, -, hout⟩ := hs
  cases out with
  | next m =>
    rw [Outcome.traced] at hout
    split at hout
    · cases hout
      exact ⟨.fault .integerTooLong, rfl⟩
    · cases hout
  | stop cause m =>
    cases hout
    exact ⟨cause, rfl⟩

theorem Fits.loop_eq_error {n : Nat} {it : Interpreter ρ} (h : it.Fits o) {halt : Halt}
    (hl : (loop o n it).1 = .error halt) : ∃ f, halt = .fault f := by
  obtain ⟨hne, p, hp, it', hs⟩ := (loop_eq_error_iff o halt n it).1 hl
  have hkeeps := (loop_keeps (P := fun _ => True) (fun _ _ _ _ => trivial) n it ⟨h, trivial⟩).1 p hp
  obtain ⟨_ | f, rfl⟩ := hkeeps.fits.step_eq_error hs
  · exact absurd rfl (hne _)
  · exact ⟨f, rfl⟩

end Interpreter
end PushMachine
