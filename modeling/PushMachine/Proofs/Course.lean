import PushMachine.Proofs.Session
/-!
# The course of a session

A session runs one program text after the other on the same machine.  `sessionPops` lists the machines at which it pops
an item, however each of its runs ends, so a condition on everything that a session executes is a condition on these
machines: what a step keeps under such a condition holds all along (`session_invariant`).
-/
namespace PushMachine
namespace Machine

variable {ρ : Type} [RandomSource ρ]

/-- The machines at which an evaluation pops an item, as `loop` goes through them. -/
def pops (o : Options) : Nat → Machine ρ → List (Machine ρ)
  | 0,          _ => []
  | budget + 1, m =>
    match m.step o with
    | none             => []
    | some (.next m')  => m :: pops o budget m'
    | some (.stop _ _) => [m]

/-- The machines at which the run of a program text pops an item. -/
def runPops (o : Options) (m : Machine ρ) (text : String) : List (Machine ρ) :=
  match Tree.parse text with
  | .error _ => []
  | .ok t    => pops o ((m.start o t).budget o) ((m.start o t).load t)

/-- The machines at which a session pops an item. -/
def sessionPops (o : Options) : Machine ρ → List String → List (Machine ρ)
  | _, []            => []
  | m, text :: texts => m.runPops o text ++ sessionPops o (m.run o text).2 texts

/-- The machine after a session. -/
def runAll (o : Options) (m : Machine ρ) (texts : List String) : Machine ρ := m.performAll o (texts.map .run)

/-- The next item is a reference to an instruction that the options allow. -/
def NextRuns (o : Options) (m : Machine ρ) (i : Instruction) : Prop :=
  ∃ token stack operation rest, m.NextRefers token stack operation rest ∧ o.resolve stack operation token = .ok i

section Invariant

variable {o : Options} {P Q : Machine ρ → Prop}

/-- What a step keeps as long as `Q` holds where an item is popped. -/
theorem loop_invariant (hstep : ∀ p out, P p → Q p → p.step o = some out → P out.machine) :
    ∀ (n : Nat) (m : Machine ρ), P m → (∀ p ∈ pops o n m, Q p) → (∀ p ∈ pops o n m, P p) ∧ P (loop o n m).2
  | 0,     m, hm, _ => ⟨List.forall_mem_nil _, hm⟩
  | n + 1, m, hm, hq => by
    rw [pops] at hq ⊢
    rw [loop]
    split at hq
    · rename_i hs
      simp only [hs]
      exact ⟨List.forall_mem_nil _, hm⟩
    · rename_i m₁ hs
      simp only [hs]
      obtain ⟨hqm, hq⟩ := List.forall_mem_cons.1 hq
      obtain ⟨hps, hend⟩ := loop_invariant hstep n m₁ (hstep m _ hm hqm hs) hq
      exact ⟨List.forall_mem_cons.2 ⟨hm, hps⟩, hend⟩
    · rename_i cause m₁ hs
      have hend : P m₁ := hstep m _ hm (hq m (List.mem_singleton.2 rfl)) hs
      simp only [hs]
      refine ⟨fun p hp => by rw [List.mem_singleton.1 hp]; exact hm, ?_⟩
      cases cause <;> exact hend

omit [RandomSource ρ] in
theorem finish_eq_self {β : Type} {f : Machine ρ → β} (hf : ∀ (m : Machine ρ) code, f { m with code := code } = f m)
    (m : Machine ρ) : f (m.finish o) = f m := by
  unfold finish
  split
  · exact hf m _
  · rfl

/-- Where CODE does not matter, the run of a tree leaves what its loop leaves. -/
theorem runTree_eq_loop {β : Type} {f : Machine ρ → β} (hf : ∀ (m : Machine ρ) code, f { m with code := code } = f m)
    (m : Machine ρ) (t : Tree) :
    f (m.runTree o t).2 = f (loop o ((m.start o t).budget o) ((m.start o t).load t)).2 := by
  have hr : (m.start o t).runCode o t = loop o ((m.start o t).budget o) ((m.start o t).load t) := rfl
  rw [← hr, runTree]
  split
  · rename_i h
    rw [h, finish_eq_self hf]
  · rename_i h
    rw [h]

theorem runTree_invariant (hstep : ∀ p out, P p → Q p → p.step o = some out → P out.machine)
    (hfinish : ∀ m, P m → P (m.finish o)) {m : Machine ρ} {t : Tree} (hstart : P ((m.start o t).load t))
    (hq : ∀ p ∈ pops o ((m.start o t).budget o) ((m.start o t).load t), Q p) :
    (∀ p ∈ pops o ((m.start o t).budget o) ((m.start o t).load t), P p) ∧ P (m.runTree o t).2 := by
  obtain ⟨hps, hend⟩ := loop_invariant hstep _ _ hstart hq
  refine ⟨hps, ?_⟩
  have hr : (m.start o t).runCode o t = loop o ((m.start o t).budget o) ((m.start o t).load t) := rfl
  rw [runTree]
  split
  · rename_i e m' he
    rw [← hr, he] at hend
    exact hfinish _ hend
  · rename_i f m' he
    rw [← hr, he] at hend
    exact hend

theorem run_invariant (hstep : ∀ p out, P p → Q p → p.step o = some out → P out.machine)
    (hfinish : ∀ m, P m → P (m.finish o)) {m : Machine ρ} {text : String}
    (hstart : ∀ t, Tree.parse text = .ok t → P m → P ((m.start o t).load t)) (hm : P m)
    (hq : ∀ p ∈ m.runPops o text, Q p) : (∀ p ∈ m.runPops o text, P p) ∧ P (m.run o text).2 := by
  rw [runPops] at hq ⊢
  rw [run]
  cases ht : Tree.parse text with
  | error e => exact ⟨List.forall_mem_nil _, hm⟩
  | ok t =>
    simp only [ht] at hq
    exact runTree_invariant hstep hfinish (hstart t ht hm) hq

/-- **What holds along a session**: at every machine at which it pops an item, and at its end. -/
theorem session_invariant (hstep : ∀ p out, P p → Q p → p.step o = some out → P out.machine)
    (hfinish : ∀ m, P m → P (m.finish o))
    (hstart : ∀ (m : Machine ρ) (text : String) (t : Tree), Tree.parse text = .ok t → P m → P ((m.start o t).load t)) :
    ∀ (texts : List String) (m : Machine ρ), P m → (∀ p ∈ sessionPops o m texts, Q p) →
      (∀ p ∈ sessionPops o m texts, P p) ∧ P (m.runAll o texts)
  | [],            m, hm, _ => ⟨List.forall_mem_nil _, hm⟩
  | text :: texts, m, hm, hq => by
    rw [sessionPops] at hq ⊢
    obtain ⟨hq₁, hq₂⟩ := List.forall_mem_append.1 hq
    obtain ⟨hps₁, hm₁⟩ := run_invariant hstep hfinish (hstart m text) hm hq₁
    obtain ⟨hps₂, hend⟩ := session_invariant hstep hfinish hstart texts _ hm₁ hq₂
    exact ⟨List.forall_mem_append.2 ⟨hps₁, hps₂⟩, hend⟩

end Invariant

end Machine
end PushMachine
