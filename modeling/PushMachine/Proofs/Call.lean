import PushMachine.Proofs.Course
/-!
# Calls

A call is an operation that evaluates: the run of a program, given as text or as a tree, or of a tree on top of what
EXEC holds.  `callPops` lists the machines at which it pops an item.  What every step keeps holds at all of them
(`call_invariant`), and a call aborts exactly if one of its steps does (`ending?_eq_aborted_iff`).
-/
namespace PushMachine

namespace Operation

/-- The operations that evaluate. -/
def isCall : Operation → Bool
  | .run _ | .runTree _ | .runCode _                => true
  | .execute _ | .reset | .flush | .define _ _ => false

/-- The tree that an operation brings in; a text that is not balanced brings in none. -/
def tree? : Operation → Option Tree
  | .run text                                           => (Tree.parse text).toOption
  | .runTree t | .runCode t | .execute t | .define _ t  => some t
  | .reset | .flush                                     => none

end Operation

namespace Machine

variable {ρ : Type} [RandomSource ρ]

/-- The machines at which an operation pops an item. -/
def callPops (o : Options) (m : Machine ρ) : Operation → List (Machine ρ)
  | .run text  => m.runPops o text
  | .runTree t => pops o ((m.start o t).budget o) ((m.start o t).load t)
  | .runCode t => pops o (m.budget o) (m.load t)
  | .execute _ | .reset | .flush | .define _ _ => []

/-- How an operation ended, if it evaluated and no fault arose. -/
def ending? (o : Options) (m : Machine ρ) : Operation → Option Ending
  | .run text  => (m.run o text).1.toOption.bind (·.toOption)
  | .runTree t => (m.runTree o t).1.toOption
  | .runCode t => (m.runCode o t).1.toOption
  | .execute _ | .reset | .flush | .define _ _ => none

variable {o : Options}

/-- **What every step keeps holds along a call**, from where the call has loaded its tree. -/
theorem call_invariant {P : Machine ρ → Prop} (hstep : ∀ p out, P p → p.step o = some out → P out.machine)
    (hfinish : ∀ m, P m → P (m.finish o)) {m : Machine ρ} {op : Operation} (hcall : op.isCall = true)
    (hstart : ∀ t ∈ op.tree?, P ((m.start o t).load t)) (hload : ∀ t ∈ op.tree?, P (m.load t)) (hm : P m) :
    (∀ p ∈ m.callPops o op, P p) ∧ P (m.perform o op) := by
  have hstep' : ∀ p out, P p → True → p.step o = some out → P out.machine := fun p out hp _ => hstep p out hp
  cases op with
  | run text =>
    refine run_invariant (Q := fun _ => True) hstep' hfinish (fun t ht _ => hstart t ?_) hm fun _ _ => trivial
    rw [Operation.tree?, ht]
    rfl
  | runTree t => exact runTree_invariant (Q := fun _ => True) hstep' hfinish (hstart t rfl) fun _ _ => trivial
  | runCode t => exact loop_invariant (Q := fun _ => True) hstep' _ _ (hload t rfl) fun _ _ => trivial
  | execute | reset | flush | define => cases hcall

/-- **What all that is done to a machine keeps.** -/
structure Kept (o : Options) (P : Machine ρ → Prop) : Prop where
  step    : ∀ m out, P m → m.step o = some out → P out.machine
  execute : ∀ m t, P m → P (m.execute o t).machine
  load    : ∀ m t, P m → P (m.load t)
  start   : ∀ m t, P m → P (m.start o t)
  finish  : ∀ m, P m → P (m.finish o)
  reset   : ∀ m, P m → P m.reset
  flush   : ∀ m, P m → P m.flush
  define  : ∀ m name t, P m → P (m.define name t)

theorem kept_true (o : Options) : Kept o fun _ : Machine ρ => True := by
  constructor <;> intros <;> trivial

theorem Kept.perform {P : Machine ρ → Prop} (hP : Kept o P) {m : Machine ρ} (h : P m) (op : Operation) :
    P (m.perform o op) := by
  have hcall : op.isCall = true → P (m.perform o op) := fun hc =>
    (call_invariant hP.step hP.finish hc (fun t _ => hP.load _ t (hP.start _ t h)) (fun t _ => hP.load _ t h) h).2
  cases op with
  | run | runTree | runCode => exact hcall rfl
  | execute t => exact hP.execute _ t h
  | reset => exact hP.reset _ h
  | flush => exact hP.flush _ h
  | define name t => exact hP.define _ name t h

/-! ## Aborted calls -/

theorem loop_eq_aborted_iff (o : Options) (a : Abort) : ∀ (n : Nat) (m : Machine ρ),
    (∃ steps, (loop o n m).1 = .ok (.aborted a steps)) ↔ ∃ p ∈ pops o n m, ∃ m', p.step o = some (.stop (.abort a) m')
  | 0,     m => by simp [loop, pops]
  | n + 1, m => by
    rw [loop, pops]
    split
    · rename_i hs
      simp [hs]
    · rename_i m₁ hs
      simp only [loop_eq_aborted_iff o a n m₁, List.mem_cons, exists_eq_or_imp, hs, reduceCtorEq, Option.some.injEq,
        exists_false, false_or]
    · rename_i b m₁ hs
      simp [hs]
    · rename_i f m₁ hs
      simp [hs]

theorem runTree_eq_aborted_iff {m : Machine ρ} {t : Tree} {a : Abort} :
    (∃ steps, (m.runTree o t).1 = .ok (.aborted a steps)) ↔
      ∃ p ∈ pops o ((m.start o t).budget o) ((m.start o t).load t), ∃ m', p.step o = some (.stop (.abort a) m') := by
  have hr : (m.start o t).runCode o t = loop o ((m.start o t).budget o) ((m.start o t).load t) := rfl
  rw [← loop_eq_aborted_iff, ← hr, runTree]
  split <;> (rename_i h; rw [h])

/-- **A call aborts exactly if one of its steps does.** -/
theorem ending?_eq_aborted_iff {m : Machine ρ} {op : Operation} {a : Abort} :
    (∃ steps, m.ending? o op = some (.aborted a steps)) ↔ ∃ p ∈ m.callPops o op, ∃ m', p.step o = some (.stop (.abort a) m') := by
  cases op with
  | run text =>
    simp only [ending?, callPops, run, runPops]
    cases Tree.parse text with
    | error e => simp [Except.toOption]
    | ok t => exact (exists_congr fun _ => toOption_eq_some_iff).trans runTree_eq_aborted_iff
  | runTree t => exact (exists_congr fun _ => toOption_eq_some_iff).trans runTree_eq_aborted_iff
  | runCode t => exact (exists_congr fun _ => toOption_eq_some_iff).trans (loop_eq_aborted_iff o a _ _)
  | execute | reset | flush | define => simp [ending?, callPops]

end Machine
end PushMachine
