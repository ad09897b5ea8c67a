import PushMachine.Proofs.Course
import PushMachine.Proofs.Likeness.Instruction
/-!
# Runs that stay alike

Let `f` keep enough of a token to tell what it means.  Then two machines that are alike under `f`, and have counted the
same steps, stay alike step by step until an instruction compares trees (`step_alike`), and so do whole runs
(`runTree_alike`): they end with the same status and the same message, or both in a fault.
-/
namespace PushMachine

variable {ρ : Type} [RandomSource ρ] {f : String → String}

/-! ## Executing one item -/

/-- What a token means, if it is read without a fault. -/
def Token.meaning? (text : String) : Option Token := (classify text).toOption

/-- The same abort for a reference that is written in another way. -/
def Abort.withToken (token : String) : Abort → Abort
  | .unknownStack stack _                 => .unknownStack stack token
  | .unknownInstruction stack operation _ => .unknownInstruction stack operation token

/-- Both stops are faults, or both are one abort but for the spelling of the reference. -/
inductive Stop.Alike : Stop → Stop → Prop
  | abort (a : Abort) (token : String) : Alike (.abort a) (.abort (a.withToken token))
  | fault (e e' : Fault) : Alike (.fault e) (.fault e')

theorem Options.resolve_withToken (o : Options) (stack operation token other : String) :
    o.resolve stack operation other = (o.resolve stack operation token).mapError (Abort.withToken other) := by
  unfold resolve
  split
  · rfl
  · split
    · rfl
    · split
      · rfl
      · split <;> rfl

namespace Machine

variable {o : Options} {m m' : Machine ρ} {k : Kind}

omit [RandomSource ρ] in
theorem Alike.pushEnabled (h : m.Alike f m') (o : Options) (x : k.Item) :
    (m.pushEnabled o k x).Alike f (m'.pushEnabled o k x) := by
  unfold Machine.pushEnabled
  split
  · exact h.push rfl
  · exact h

omit [RandomSource ρ] in
theorem Alike.executeName (h : m.Alike f m') (o : Options) (name : String) :
    (m.executeName o name).Alike f (m'.executeName o name) := by
  have hunquoted : Alike f { m with quoting := false } { m' with quoting := false } :=
    ⟨h.stack, h.bindings, rfl, h.supply⟩
  rw [Machine.executeName, Machine.executeName]
  by_cases hq : m.quoting = true
  · rw [if_pos hq, if_pos (h.quoting ▸ hq)]
    exact hunquoted.pushEnabled (k := .name) o name
  · rw [if_neg hq, if_neg (h.quoting ▸ hq)]
    cases hl : m.bindings.lookup name with
    | none =>
      rw [Bindings.lookup_none h.bindings hl]
      exact h.pushEnabled (k := .name) o name
    | some t =>
      obtain ⟨u, hu, htu⟩ := Bindings.lookup_some h.bindings hl
      rw [hu]
      exact h.push (k := .exec) htu

/-- **Executing trees that are alike on machines that are alike.** -/
theorem execute_alike (hf : ∀ a b, f a = f b → Token.meaning? a = Token.meaning? b) (h : m.Alike f m') {t u : Tree}
    (htu : t.Like f u)
    (hc : ∀ token stack operation i, t = .atom token → Token.classify token = .ok (.instruction stack operation) →
      o.resolve stack operation token = .ok i → i.comparesTrees = false) :
    (m.execute o t).Alike f Stop.Alike (m'.execute o u) := by
  cases t with
  | list ts =>
    obtain ⟨us, rfl, hus⟩ := htu.list_left
    exact .next (h.withExec (by rw [List.map_append, List.map_append, hus, h.exec]))
  | atom token =>
    obtain ⟨other, rfl, hother⟩ := htu.atom_left
    have hmeaning := hf token other hother
    simp only [Token.meaning?] at hmeaning
    simp only [execute]
    cases hclass : Token.classify token with
    | error e =>
      cases hclass' : Token.classify other with
      | error e' => exact .stop (.fault e e') h
      | ok meaning => simp [hclass, hclass', Except.toOption] at hmeaning
    | ok meaning =>
      have hclass' : Token.classify other = .ok meaning := by
        cases hclass' : Token.classify other with
        | error e' => simp [hclass, hclass', Except.toOption] at hmeaning
        | ok meaning' => simpa [hclass, hclass', Except.toOption] using hmeaning.symm
      rw [hclass']
      cases meaning with
      | integer n => exact .next (h.pushEnabled (k := .integer) o n)
      | float x => exact .next (h.pushEnabled (k := .float) o x)
      | boolean b => exact .next (h.pushEnabled (k := .boolean) o b)
      | name name => exact .next (h.executeName o name)
      | instruction stack operation =>
        dsimp only
        rw [o.resolve_withToken stack operation token other]
        cases hr : o.resolve stack operation token with
        | error a => exact .stop (.abort a other) h
        | ok i =>
          have hrun := i.run_alike o h (hc token stack operation i rfl hclass hr)
          simp only [Except.mapError]
          -- the instruction goes on in both machines, or stops both for the same fault
          generalize i.run o m = out at hrun ⊢
          generalize i.run o m' = out' at hrun ⊢
          cases hrun with
          | next hm => exact .next hm
          | stop _ hm => exact .stop (.fault _ _) hm

theorem step_alike (hf : ∀ a b, f a = f b → Token.meaning? a = Token.meaning? b) (h : m.Alike f m')
    (hc : ∀ i, m.NextRuns o i → i.comparesTrees = false) :
    (m.step o = none ∧ m'.step o = none) ∨
      ∃ out out', m.step o = some out ∧ m'.step o = some out' ∧ out.Alike f Stop.Alike out' := by
  cases he : m.exec with
  | nil => exact .inl ⟨step_eq_none_iff.2 he, step_eq_none_iff.2 (h.nil (k := .exec) he)⟩
  | cons t rest =>
    obtain ⟨u, rest', he', htu, hrest⟩ := h.cons (k := .exec) he
    have hpop : Alike f { m with exec := rest, steps := m.steps + 1 } { m' with exec := rest', steps := m'.steps + 1 } :=
      ⟨(h.withExec hrest).stack, h.bindings, h.quoting, h.supply⟩
    refine .inr ⟨_, _, step_of_exec he, step_of_exec he', execute_alike hf hpop htu ?_⟩
    intro token stack operation i ht hclass hr
    exact hc i ⟨token, stack, operation, rest, ⟨by rw [he, ht], hclass⟩, hr⟩

/-! ## Runs -/

/-- Both runs failed, or they ended with one status, message and count of steps at machines that are alike. -/
inductive EndAlike (f : String → String) : Except Fault Ending × Machine ρ → Except Fault Ending × Machine ρ → Prop
  | ended {e e' : Ending} {m m' : Machine ρ} : e.status = e'.status → e.message? = e'.message? → e.steps = e'.steps →
      m.Alike f m' → m.steps = m'.steps → EndAlike f (.ok e, m) (.ok e', m')
  | failed {e e' : Fault} {m m' : Machine ρ} : EndAlike f (.error e, m) (.error e', m')

/-- The two loops go step by step as long as nothing compares trees in the first. -/
theorem loop_alike (hf : ∀ a b, f a = f b → Token.meaning? a = Token.meaning? b) :
    ∀ (n : Nat) {m m' : Machine ρ}, m.Alike f m' → m.steps = m'.steps →
      (∀ p ∈ pops o n m, ∀ i, p.NextRuns o i → i.comparesTrees = false) → EndAlike f (loop o n m) (loop o n m')
  | 0, m, m', h, hs, _ => by
    rw [loop, loop, hs]
    exact .ended rfl rfl rfl h hs
  | n + 1, m, m', h, hs, hc => by
    rw [pops] at hc
    rw [loop, loop]
    have hm : ∀ i, m.NextRuns o i → i.comparesTrees = false := by
      intro i hi
      obtain ⟨token, stack, operation, rest, ⟨he, -⟩, -⟩ := id hi
      refine hc m ?_ i hi
      rw [step_of_exec he]
      split <;> simp_all
    obtain ⟨hstop, hstop'⟩ | ⟨out, out', hout, hout', halike⟩ := step_alike hf h hm
    · rw [hstop, hstop']
      exact .ended rfl rfl hs h hs
    · have hcount := step_steps hout
      have hcount' := step_steps hout'
      rw [hout, hout']
      cases halike with
      | next hnext =>
        simp only [hout] at hc
        simp only [Outcome.machine] at hcount hcount'
        exact loop_alike hf n hnext (by omega) fun p hp => hc p (List.mem_cons_of_mem _ hp)
      | stop hcause hend =>
        simp only [Outcome.machine] at hcount hcount'
        cases hcause with
        | abort a token =>
          have hsteps := hcount.trans ((congrArg (· + 1) hs).trans hcount'.symm)
          cases a <;> exact .ended rfl rfl hsteps hend hsteps
        | fault e e' => exact .failed

omit [RandomSource ρ] in
theorem start_alike (o : Options) (m : Machine ρ) {t u : Tree} (htu : t.Like f u) :
    (m.start o t).Alike f (m.start o u) := by
  unfold start
  dsimp only
  split
  · exact (Alike.refl f m.reset).push (k := .code) htu
  · exact .refl f _

omit [RandomSource ρ] in
theorem Alike.finish (h : m.Alike f m') (o : Options) : (m.finish o).Alike f (m'.finish o) := by
  unfold Machine.finish
  split
  · exact h.withCode (by rw [List.map_tail, List.map_tail, h.code])
  · exact h

omit [RandomSource ρ] in
theorem start_steps (o : Options) (m : Machine ρ) (t : Tree) : (m.start o t).steps = 0 := by
  unfold start
  split <;> rfl

omit [RandomSource ρ] in
theorem finish_steps (o : Options) (m : Machine ρ) : (m.finish o).steps = m.steps := by
  unfold finish
  split <;> rfl

/-- **Programs that are alike run alike**, unless the first run executes an instruction that compares trees. -/
theorem runTree_alike (hf : ∀ a b, f a = f b → Token.meaning? a = Token.meaning? b) (o : Options) (m : Machine ρ)
    {t u : Tree} (htu : t.Like f u)
    (hc : ∀ p ∈ pops o ((m.start o t).budget o) ((m.start o t).load t), ∀ i, p.NextRuns o i → i.comparesTrees = false) :
    EndAlike f (m.runTree o t) (m.runTree o u) := by
  have hload : ((m.start o t).load t).Alike f ((m.start o u).load u) :=
    (start_alike o m htu).push (k := .exec) htu
  have hbudget : (m.start o u).budget o = (m.start o t).budget o := by
    rw [budget, budget, start_steps, start_steps]
  have hloop : EndAlike f ((m.start o t).runCode o t) ((m.start o u).runCode o u) := by
    rw [runCode, runCode, hbudget]
    exact loop_alike hf _ hload ((start_steps o m t).trans (start_steps o m u).symm) hc
  rw [runTree, runTree]
  generalize (m.start o t).runCode o t = r at hloop ⊢
  generalize (m.start o u).runCode o u = r' at hloop ⊢
  cases hloop with
  | ended hstatus hmessage hcount hend hsteps =>
    exact .ended hstatus hmessage hcount (hend.finish o) (by rw [finish_steps, finish_steps, hsteps])
  | failed => exact .failed

end Machine
end PushMachine
