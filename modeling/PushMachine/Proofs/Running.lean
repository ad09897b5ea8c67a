import PushMachine.Proofs.Course
import PushMachine.Proofs.Origin
/-!
# The instruction that a step runs

An item that refers to an instruction that the options allow runs it (`instruction?`).  A step that pops such an item
does what the instruction does (`step_of_instruction`).
-/
namespace PushMachine

variable {ρ : Type}

namespace Options

/-- The instruction that an item runs. -/
def instruction? (o : Options) : Tree → Option Instruction
  | .list _     => none
  | .atom token =>
    match Token.classify token with
    | .ok (.instruction stack operation) => (o.resolve stack operation token).toOption
    | _                                  => none

theorem instruction?_atom_eq_some_iff {o : Options} {token : String} {i : Instruction} :
    o.instruction? (.atom token) = some i ↔
      ∃ stack operation, Token.classify token = .ok (.instruction stack operation) ∧
        o.resolve stack operation token = .ok i := by
  rw [instruction?]
  split
  · rename_i stack operation hc
    simp [hc, toOption_eq_some_iff]
  · rename_i hc
    constructor
    · intro h
      cases h
    · rintro ⟨stack, operation, h, -⟩
      exact absurd h (hc stack operation)

theorem mem_all_of_instruction? {o : Options} {t : Tree} {i : Instruction} (h : o.instruction? t = some i) :
    i ∈ Instruction.all := by
  cases t with
  | list items => cases h
  | atom token =>
    obtain ⟨stack, operation, -, hr⟩ := instruction?_atom_eq_some_iff.1 h
    exact (resolve_eq_ok hr).1

/-- The token of an instruction that is allowed runs it. -/
theorem instruction?_token {o : Options} {i : Instruction} (ha : o.allows i = true)
    (hc : Token.classify i.token = .ok (.instruction i.kind.label i.operation))
    (hf : Instruction.find? i.kind i.operation = some i) : o.instruction? (.atom i.token) = some i := by
  obtain ⟨hk, hen⟩ := Bool.and_eq_true_iff.1 ha
  have hlabel : Kind.ofLabel? i.kind.label = some i.kind := by cases i.kind <;> rfl
  refine instruction?_atom_eq_some_iff.2 ⟨_, _, hc, ?_⟩
  simp [resolve, hlabel, hk, hf, hen]

end Options

namespace Machine

variable {o : Options} {m m₁ : Machine ρ} {i : Instruction} {rest : Stack Tree}

theorem nextRuns_iff : m.NextRuns o i ↔ ∃ t rest, m.exec = t :: rest ∧ o.instruction? t = some i := by
  constructor
  · rintro ⟨token, stack, operation, rest, ⟨he, hc⟩, hr⟩
    exact ⟨.atom token, rest, he, Options.instruction?_atom_eq_some_iff.2 ⟨stack, operation, hc, hr⟩⟩
  · rintro ⟨t, rest, he, hi⟩
    cases t with
    | list items => cases hi
    | atom token =>
      obtain ⟨stack, operation, hc, hr⟩ := Options.instruction?_atom_eq_some_iff.1 hi
      exact ⟨token, stack, operation, rest, ⟨he, hc⟩, hr⟩

theorem NextRuns.allows (h : m.NextRuns o i) : o.allows i = true := by
  obtain ⟨_, _, _, _, _, hr⟩ := h
  exact (Options.resolve_eq_ok hr).2.2.2

variable [RandomSource ρ]

theorem machine_execute_of_instruction {t : Tree} (hi : o.instruction? t = some i) :
    (m.execute o t).machine = (i.run o m).machine := by
  cases t with
  | list items => cases hi
  | atom token =>
    obtain ⟨stack, operation, hc, hr⟩ := Options.instruction?_atom_eq_some_iff.1 hi
    simp only [execute, hc, hr]
    cases i.run o m <;> rfl

theorem step_of_instruction {t : Tree} (he : m.exec = t :: rest) (hi : o.instruction? t = some i)
    (hr : i.run o (m.popped rest) = .next m₁) : m.step o = some (.next m₁) := by
  cases t with
  | list items => cases hi
  | atom token =>
    obtain ⟨stack, operation, hc, hresolve⟩ := Options.instruction?_atom_eq_some_iff.1 hi
    have hr : i.run o { m with exec := rest, steps := m.steps + 1 } = .next m₁ := hr
    rw [step_of_exec he]
    simp only [execute, hc, hresolve, hr]

theorem step_of_nextRuns (hi : m.NextRuns o i) (he : m.exec.tail = rest) (hr : i.run o (m.popped rest) = .next m₁) :
    m.step o = some (.next m₁) := by
  obtain ⟨t, rest', he', ht⟩ := nextRuns_iff.1 hi
  rw [he', List.tail_cons] at he
  exact step_of_instruction (he ▸ he') ht hr

end Machine
end PushMachine
