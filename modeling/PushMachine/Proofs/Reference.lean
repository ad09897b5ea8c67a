import PushMachine.Machine.Execute
/-!
# What a reference means

A reference `stack.operation` is resolved by the options.  It means an instruction exactly when some instruction that
they allow has its stack and its operation; otherwise it aborts, for its stack if they enable no stack of that name,
and for its operation if they do (`resolve_eq_error_iff`).
-/
namespace PushMachine

theorem toOption_eq_some_iff {ε α : Type} {r : Except ε α} {a : α} : r.toOption = some a ↔ r = .ok a := by
  cases r <;> simp [Except.toOption]

theorem Kind.mem_all (k : Kind) : k ∈ Kind.all := by cases k <;> decide

theorem Kind.label_injective {j k : Kind} (h : j.label = k.label) : j = k := by
  revert h; cases j <;> cases k <;> decide

theorem Kind.ofLabel?_eq_some {stack : String} {k : Kind} (h : Kind.ofLabel? stack = some k) : k.label = stack := by
  simpa using List.find?_some h

theorem Kind.ofLabel?_eq_none {stack : String} (h : Kind.ofLabel? stack = none) (k : Kind) : k.label ≠ stack := by
  simpa using List.find?_eq_none.1 h k k.mem_all

namespace Instruction

theorem kind_of_mem_ofKind {k : Kind} {i : Instruction} (h : i ∈ ofKind k) : i.kind = k := by
  cases k <;> simp only [ofKind, manipulations, List.mem_append, List.mem_map] at h <;>
    rcases h with ⟨_, -, rfl⟩ | ⟨_, -, rfl⟩ <;> rfl

theorem mem_all_iff {i : Instruction} : i ∈ all ↔ i ∈ ofKind i.kind := by
  refine ⟨fun h => ?_, fun h => List.mem_flatMap.2 ⟨i.kind, i.kind.mem_all, h⟩⟩
  obtain ⟨k, -, hk⟩ := List.mem_flatMap.1 h
  rw [kind_of_mem_ofKind hk]
  exact hk

theorem find?_eq_some {k : Kind} {operation : String} {i : Instruction} (h : find? k operation = some i) :
    i ∈ all ∧ i.kind = k ∧ i.operation = operation := by
  simp only [find?, Registry.find?, library, Option.map_eq_some_iff] at h
  obtain ⟨⟨name, j⟩, hf, rfl⟩ := h
  obtain ⟨j', hj, he⟩ := List.mem_map.1 (List.mem_of_find?_eq_some hf)
  have hn := List.find?_some hf
  cases he
  exact ⟨mem_all_iff.2 ((kind_of_mem_ofKind hj).symm ▸ hj), kind_of_mem_ofKind hj, by simpa using hn⟩

theorem find?_isSome {i : Instruction} (h : i ∈ all) : (find? i.kind i.operation).isSome := by
  simp only [find?, Registry.find?, library, Option.isSome_map, List.find?_isSome]
  exact ⟨(i.operation, i), List.mem_map.2 ⟨i, mem_all_iff.1 h, rfl⟩, by simp⟩

end Instruction

namespace Options

/-- A stack of this name is there. -/
def HasStack (o : Options) (stack : String) : Prop := ∃ k : Kind, k.label = stack ∧ o.enables k = true

/-- An instruction of this stack and this operation is there and allowed. -/
def HasInstruction (o : Options) (stack operation : String) : Prop :=
  ∃ i ∈ Instruction.all, i.kind.label = stack ∧ i.operation = operation ∧ o.allows i = true

/-- **A reference that does not resolve**: either its stack is not there, or its stack is there and the operation is
not. -/
theorem resolve_eq_error_iff (o : Options) (stack operation token : String) (a : Abort) :
    o.resolve stack operation token = .error a ↔
      (¬ o.HasStack stack ∧ a = .unknownStack stack token) ∨
      (o.HasStack stack ∧ ¬ o.HasInstruction stack operation ∧ a = .unknownInstruction stack operation token) := by
  unfold resolve
  split
  · rename_i hk
    have hs : ¬ o.HasStack stack := fun ⟨k, hl, _⟩ => Kind.ofLabel?_eq_none hk k hl
    simp [hs, eq_comm]
  · rename_i k hk
    have hl := Kind.ofLabel?_eq_some hk
    subst hl
    cases he : o.enables k with
    | false =>
      have hs : ¬ o.HasStack k.label := fun ⟨j, hj, hen⟩ => by
        rw [Kind.label_injective hj, he] at hen; cases hen
      simp [hs, eq_comm]
    | true =>
      have hs : o.HasStack k.label := ⟨k, rfl, he⟩
      simp only [Bool.not_true, Bool.false_eq_true, if_false]
      split
      · rename_i hf
        have hi : ¬ o.HasInstruction k.label operation := fun ⟨i, hm, hl, ho, _⟩ => by
          have := Instruction.find?_isSome hm
          rw [Kind.label_injective hl, ho, hf] at this
          cases this
        simp [hs, hi, eq_comm]
      · rename_i i hf
        obtain ⟨hm, hik, hio⟩ := Instruction.find?_eq_some hf
        split
        · rename_i hen
          have hi : o.HasInstruction k.label operation :=
            ⟨i, hm, by rw [hik], hio, by simp [allows, hik, hio, he, hen]⟩
          simp [hs, hi]
        · rename_i hen
          have hi : ¬ o.HasInstruction k.label operation := fun ⟨j, _, hl, ho, ha⟩ => by
            have := (Bool.and_eq_true_iff.1 ha).2
            rw [hl, ho] at this
            exact hen this
          simp [hs, hi, eq_comm]

/-- A reference that resolves means an instruction of its stack and its operation that the options allow. -/
theorem resolve_eq_ok {o : Options} {stack operation token : String} {i : Instruction}
    (h : o.resolve stack operation token = .ok i) :
    i ∈ Instruction.all ∧ i.kind.label = stack ∧ i.operation = operation ∧ o.allows i = true := by
  unfold resolve at h
  split at h
  · cases h
  · rename_i k hk
    cases he : o.enables k with
    | false => simp [he] at h
    | true =>
      simp only [he, Bool.not_true, Bool.false_eq_true, if_false] at h
      split at h
      · cases h
      · rename_i j hf
        obtain ⟨hm, hjk, hjo⟩ := Instruction.find?_eq_some hf
        have hl := Kind.ofLabel?_eq_some hk
        split at h
        · rename_i hen
          cases h
          refine ⟨hm, by rw [hjk, hl], hjo, ?_⟩
          rw [allows, hjk, hjo, hl, he, hen]
          rfl
        · cases h

end Options
end PushMachine
