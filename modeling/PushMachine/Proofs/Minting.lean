import PushMachine.Proofs.Call
import PushMachine.Proofs.Lexical
import PushMachine.Proofs.Requests
import PushMachine.Proofs.Running
import PushMachine.Random.Twister
/-!
# No name is minted twice

Whatever is done to a machine, the names of its supply are the old ones and new ones at the end: an instruction, a step,
an evaluation and a generator called from outside only mint (`Instruction.run_mints`, `step_mints`, `perform_mints`,
`act_mints`).  So along any sequence of acts the names of a machine are minted and none is there twice.
-/
namespace PushMachine

variable {ρ : Type}

/-- The names of a supply are minted and none is there twice. -/
structure Supply.Distinct (s : Supply ρ) : Prop where
  nodup    : s.minted.Nodup
  isMinted : ∀ name ∈ s.minted, Supply.IsMinted name

theorem Supply.Mints.distinct {s s' : Supply ρ} (h : s.Mints s') (hs : s.Distinct) : s'.Distinct :=
  ⟨h.nodup hs.nodup, h.isMinted hs.isMinted⟩

/-- What may be done to a machine or to its supply. -/
inductive Act where
  | perform (op : Operation)
  | newName
  | anyName
  | atom
  | ofSize (size : Int)
  | upTo (maxPoints : Int)

variable [RandomSource ρ]

/-! ## Instructions -/

theorem RandomCode.asks_of_true (o : Options) :
    (atom o : Generator ρ Tree).Asks (fun _ => True) (o.enables .name) ∧
    (∀ size, (ofSize o size : Generator ρ Tree).Asks (fun _ => True) (o.enables .name)) ∧
    ∀ maxPoints, (upTo o maxPoints : Generator ρ Tree).Asks (fun _ => True) (o.enables .name) :=
  ⟨asks_atom (fun _ _ => trivial) trivial trivial, asks_ofSize (fun _ _ => trivial) trivial trivial,
    asks_upTo (fun _ _ => trivial) trivial trivial⟩

/-- **An instruction only mints.** -/
theorem Instruction.run_mints (o : Options) (m : Machine ρ) (i : Instruction) :
    m.supply.Mints (i.run o m).machine.supply := by
  rcases i.run_supply_cases o m with he | ⟨-, he⟩ | ⟨-, limit, he⟩
  · exact .of_minted_eq he
  · rw [he]
    exact Supply.newName_mints m.supply
  · rw [he]
    exact ((RandomCode.asks_of_true o).2.2 limit).mints m.supply

namespace Machine

variable {o : Options} {m : Machine ρ}

/-- A new name is on top of NAME; it was not there before, and it is the one that is added. -/
def PushesNew (m m' : Machine ρ) : Prop :=
  ∃ name, m'.name = name :: m.name ∧ name ∉ m.supply.minted ∧ m'.supply.minted = m.supply.minted ++ [name]

theorem pushesNew_newName {m' : Machine ρ} (h : NameOp.newName m = .next m') : m.PushesNew m' := by
  unfold NameOp.newName at h
  split at h
  · rename_i name supply hn
    cases h
    obtain ⟨-, hnew, he⟩ := Supply.newName_eq_ok hn
    exact ⟨name, rfl, hnew, he⟩
  · cases h

/-! ## Evaluation -/

theorem execute_mints (o : Options) (m : Machine ρ) (t : Tree) : m.supply.Mints (m.execute o t).machine.supply := by
  rcases execute_cases o m t with ⟨-, hs⟩ | ⟨token, stack, operation, i, rfl, -, -, heq⟩
  · rw [hs]
    exact .refl _
  · rw [heq]
    exact i.run_mints o m

/-- **A step only mints.** -/
theorem step_mints {out : Outcome Stop ρ} (h : m.step o = some out) : m.supply.Mints out.machine.supply := by
  obtain ⟨t, rest, -, rfl, -⟩ := step_origin h
  exact execute_mints o (m.popped rest) t

theorem pushesNew_execute {t : Tree} (hi : o.instruction? t = some (.name .rand)) {m' : Machine ρ}
    (h : m.execute o t = .next m') : m.PushesNew m' := by
  cases t with
  | list items => cases hi
  | atom token =>
    obtain ⟨stack, operation, hc, hr⟩ := Options.instruction?_atom_eq_some_iff.1 hi
    simp only [execute, hc, hr] at h
    split at h
    · rename_i m₁ hrun
      cases h
      exact pushesNew_newName hrun
    · cases h

/-- **A step that runs `name.rand` pushes a name that differs from all that were minted before.** -/
theorem pushesNew_step (hi : m.NextRuns o (.name .rand)) {m' : Machine ρ} (h : m.step o = some (.next m')) :
    m.PushesNew m' := by
  obtain ⟨t, rest, he, ht⟩ := nextRuns_iff.1 hi
  rw [step_of_exec he] at h
  exact pushesNew_execute (m := m.popped rest) ht (Option.some.inj h)

/-- Between the start and the end of an evaluation each of its machines has the names of the start, and the end has the
names of each. -/
theorem pops_mints (o : Options) : ∀ (n : Nat) (m : Machine ρ), m.supply.Mints (loop o n m).2.supply ∧
    ∀ p ∈ pops o n m, m.supply.Mints p.supply ∧ p.supply.Mints (loop o n m).2.supply
  | 0,     m => ⟨.refl _, List.forall_mem_nil _⟩
  | n + 1, m => by
    rw [loop, pops]
    split
    · rename_i hs
      simp only [hs]
      exact ⟨.refl _, List.forall_mem_nil _⟩
    · rename_i m₁ hs
      simp only [hs]
      have hstep : m.supply.Mints m₁.supply := step_mints hs
      obtain ⟨hend, hps⟩ := pops_mints o n m₁
      refine ⟨hstep.trans hend, List.forall_mem_cons.2 ⟨⟨.refl _, hstep.trans hend⟩, fun p hp => ?_⟩⟩
      exact ⟨hstep.trans (hps p hp).1, (hps p hp).2⟩
    all_goals
      rename_i m₁ hs
      simp only [hs]
      have hstep : m.supply.Mints m₁.supply := step_mints hs
      exact ⟨hstep, List.forall_mem_singleton.2 ⟨.refl _, hstep⟩⟩

theorem runTree_mints (o : Options) (m : Machine ρ) (t : Tree) : m.supply.Mints (m.runTree o t).2.supply ∧
    ∀ p ∈ pops o ((m.start o t).budget o) ((m.start o t).load t),
      m.supply.Mints p.supply ∧ p.supply.Mints (m.runTree o t).2.supply := by
  have hstart : ((m.start o t).load t).supply = m.supply := by
    unfold start
    dsimp only
    split <;> rfl
  have hrun : (m.runTree o t).2.supply = (loop o ((m.start o t).budget o) ((m.start o t).load t)).2.supply :=
    runTree_eq_loop (f := fun m => m.supply) (fun _ _ => rfl) m t
  rw [hrun, ← hstart]
  exact pops_mints o _ _

/-- **An operation only mints**, and so do the parts of it before and after each step. -/
theorem perform_mints (o : Options) (m : Machine ρ) (op : Operation) : m.supply.Mints (m.perform o op).supply ∧
    ∀ p ∈ m.callPops o op, m.supply.Mints p.supply ∧ p.supply.Mints (m.perform o op).supply := by
  cases op with
  | run text =>
    simp only [callPops, runPops, perform, run]
    cases Tree.parse text with
    | error e => exact ⟨.refl _, List.forall_mem_nil _⟩
    | ok t => exact runTree_mints o m t
  | runTree t => exact runTree_mints o m t
  | runCode t => exact pops_mints o _ (m.load t)
  | execute t => exact ⟨execute_mints o m t, List.forall_mem_nil _⟩
  | reset | flush | define => exact ⟨.refl _, List.forall_mem_nil _⟩

theorem mem_pops_self {m' : Machine ρ} (h : m.step o = some (.next m')) : ∀ {n : Nat}, 0 < n → m ∈ pops o n m
  | n + 1, _ => by
    rw [pops, h]
    exact List.mem_cons_self

/-- On a machine without names `name.rand` finds one. -/
theorem exists_step_first (source : ρ) :
    ∃ m', ((initial source).load (.atom "name.rand")).step {} = some (.next m') := by
  let m := (initial source).load (.atom "name.rand")
  obtain ⟨name, s', hn⟩ := Supply.exists_newName_eq (s := (m.popped []).supply) rfl
  have hrun : ∃ m', NameOp.newName (m.popped []) = .next m' := by
    rw [NameOp.newName, hn]
    exact ⟨_, rfl⟩
  obtain ⟨m', hm'⟩ := hrun
  have hexec : m.exec = .atom "name.rand" :: [] := rfl
  exact ⟨m', step_of_instruction (i := .name .rand) hexec rfl hm'⟩

/-! ## Acts -/

/-- The machine once a generator has used its supply. -/
def supplied {α : Type} (m : Machine ρ) (g : Generator ρ α) : Machine ρ := { m with supply := (g m.supply).2 }

/-- The machine after an act, however the act ended. -/
def act (o : Options) (m : Machine ρ) : Act → Machine ρ
  | .perform op     => m.perform o op
  | .newName        => m.supplied Supply.newName
  | .anyName        => m.supplied (Supply.anyName o.nameProbability)
  | .atom           => m.supplied (RandomCode.atom o)
  | .ofSize size    => m.supplied (RandomCode.ofSize o size)
  | .upTo maxPoints => m.supplied (RandomCode.upTo o maxPoints)

/-- The machine after several acts. -/
def actAll (o : Options) (m : Machine ρ) (acts : List Act) : Machine ρ := acts.foldl (act o) m

/-- **An act only mints.** -/
theorem act_mints (o : Options) (m : Machine ρ) (a : Act) : m.supply.Mints (m.act o a).supply := by
  obtain ⟨hatom, hsize, hup⟩ := RandomCode.asks_of_true (ρ := ρ) o
  cases a with
  | perform op => exact (perform_mints o m op).1
  | newName => exact Supply.newName_mints m.supply
  | anyName =>
    have hname : (Supply.anyName o.nameProbability : Generator ρ String).Asks (fun _ => True) true :=
      Supply.asks_anyName (fun _ _ => trivial) _
    exact hname.mints m.supply
  | atom => exact hatom.mints m.supply
  | ofSize size => exact (hsize size).mints m.supply
  | upTo maxPoints => exact (hup maxPoints).mints m.supply

theorem actAll_mints (o : Options) : ∀ (acts : List Act) (m : Machine ρ), m.supply.Mints (m.actAll o acts).supply
  | [],        _ => .refl _
  | a :: acts, m => (act_mints o m a).trans (actAll_mints o acts (m.act o a))

/-- **Minted names never repeat.**  After any acts on a machine with nothing on it, and at each step of an operation
that follows, the names are minted, none is there twice, and they are only added to at the end.  Whatever the machine,
a `name.rand` that pushes a name pushes one that was not there and adds it, and a name that `anyName` gives is there
afterwards. -/
theorem distinct_of_acts (o : Options) :
    (∀ (source : ρ) (acts : List Act),
      let m := (initial source).actAll o acts
      m.supply.Distinct ∧
      (∀ a, m.supply.minted <+: (m.act o a).supply.minted) ∧
      (∀ op, ∀ p ∈ m.callPops o op, p.supply.Distinct ∧
        m.supply.minted <+: p.supply.minted ∧ p.supply.minted <+: (m.perform o op).supply.minted)) ∧
    (∀ m m' : Machine ρ,
      (m.NextRuns o (.name .rand) → m.step o = some (.next m') → m.PushesNew m') ∧
      (∀ t, o.instruction? t = some (.name .rand) → m.execute o t = .next m' → m.PushesNew m')) ∧
    (∀ (probability : Float) (s s' : Supply ρ) (name : String),
      Supply.anyName probability s = (.ok name, s') → name ∈ s'.minted) := by
  refine ⟨fun source acts => ?_, fun m m' => ⟨fun hi h => pushesNew_step hi h, fun t hi h => pushesNew_execute hi h⟩,
    fun probability s s' name h => ?_⟩
  · intro m
    have hinit : (initial source).supply.Distinct := ⟨.nil, List.forall_mem_nil _⟩
    have hm : m.supply.Distinct := (actAll_mints o acts _).distinct hinit
    refine ⟨hm, fun a => (act_mints o m a).isPrefix, fun op p hp => ?_⟩
    obtain ⟨hbefore, hafter⟩ := (perform_mints o m op).2 p hp
    exact ⟨hbefore.distinct hm, hbefore.isPrefix, hafter.isPrefix⟩
  · have hleft := Supply.anyName_left (E := fun _ => True) trivial probability s
    rw [h] at hleft
    exact hleft.value name rfl

/-- `name.rand` on a machine without names, after which the name that it pushed is the only one; and a name asked for
when there is none. -/
theorem distinct_of_acts_first :
    let m := initial (Twister.ofSeed 0)
    let p := m.load (.atom "name.rand")
    (p ∈ m.callPops {} (.runCode (.atom "name.rand")) ∧ p.supply.Distinct) ∧
    (p.NextRuns {} (.name .rand) ∧
      ∃ m', p.step {} = some (.next m') ∧ ∃ name, m'.name = [name] ∧ m'.supply.minted = [name]) ∧
    (∃ name s', Supply.anyName 0.5 m.supply = (.ok name, s') ∧ name ∈ s'.minted) := by
  intro m p
  have hnext : p.NextRuns {} (.name .rand) := nextRuns_iff.2 ⟨_, [], rfl, rfl⟩
  obtain ⟨m', hm'⟩ := exists_step_first (Twister.ofSeed 0)
  have hmem : p ∈ m.callPops {} (.runCode (.atom "name.rand")) := mem_pops_self hm' (by decide)
  obtain ⟨hacts, hpush, hany⟩ := distinct_of_acts (ρ := Twister) {}
  refine ⟨⟨hmem, ((hacts (Twister.ofSeed 0) []).2.2 _ p hmem).1⟩, ⟨hnext, m', hm', ?_⟩, ?_⟩
  · obtain ⟨name, hname, -, hminted⟩ := (hpush p m').1 hnext hm'
    exact ⟨name, hname, hminted⟩
  · obtain ⟨name, s', hn⟩ := Supply.exists_newName_eq (s := m.supply) rfl
    exact ⟨name, s', hn, hany 0.5 m.supply s' name hn⟩

end Machine
end PushMachine
