import Mathlib.Data.Int.ModEq
import PushMachine.Proofs.Budget
import PushMachine.Proofs.IntegerRange
import PushMachine.Proofs.Literal
import PushMachine.Proofs.Running
/-!
# Programs that compute an expression

The code of an arithmetic expression is its literals and operators, each operator after its operands.  Executed in front
of anything, it leaves what is behind it and pushes the value of the expression, in one step for each token
(`after?_code`, by induction on the expression).  The value wraps at every sum, difference and product; where there are
no other operators, that is the exact value wrapped once (`value_eq_wrap_exact`).
-/
namespace PushMachine

/-! ## Arithmetic of 64 bits -/

namespace Number

theorem wrap_modEq (n : Int) : wrap n ≡ n [ZMOD 0x10000000000000000] := Int.bmod_emod

/-- **The representative is the only integer of 64 bits that is congruent.** -/
theorem eq_wrap_of_modEq {r n : Int} (hr : inInt64 r = true) (h : r ≡ n [ZMOD 0x10000000000000000]) : r = wrap n := by
  have hrem : r % (0x10000000000000000 : Nat) = n % (0x10000000000000000 : Nat) := h
  rw [← wrap_of_inInt64 hr, wrap, wrap, Int.bmod_def, Int.bmod_def, hrem]

/-- A quotient is of 64 bits, but for that of the least integer by minus one. -/
theorem inInt64_tdiv {a b : Int} (ha : inInt64 a = true) (h : ¬ (a = int64Min ∧ b = -1)) :
    inInt64 (a.tdiv b) = true := by
  rw [inInt64_iff] at ha ⊢
  unfold int64Min at h
  by_cases hsmall : b.natAbs ≤ 1
  · obtain rfl | rfl | rfl : b = 0 ∨ b = 1 ∨ b = -1 := by omega
    · rw [Int.tdiv_zero]
      decide
    · rwa [Int.tdiv_one]
    · rw [Int.tdiv_neg, Int.tdiv_one]
      omega
  · have habs : (a.tdiv b).natAbs = a.natAbs / b.natAbs := Int.natAbs_tdiv a b
    have hhalf : a.natAbs / b.natAbs ≤ a.natAbs / 2 := Nat.div_le_div_left (by omega) (by decide)
    omega

end Number

/-! ## Expressions -/

/-- A text that is executed as an integer. -/
structure Literal where
  token    : String
  value    : Int
  classify : Token.classify token = .ok (.integer value)

/-- An integer of 64 bits as it is written. -/
def Literal.ofInteger (n : Int) (h : Number.inInt64 n = true) : Literal := ⟨n.repr, n, Token.classify_repr h⟩

inductive Operator where
  | add
  | sub
  | mul
  | div
  | mod
  | max
  | min
  deriving DecidableEq, Repr

namespace Operator

/-- The INTEGER operation of an operator. -/
def operation : Operator → IntegerOp
  | .add => .add
  | .sub => .sub
  | .mul => .mul
  | .div => .div
  | .mod => .mod
  | .max => .max
  | .min => .min

def instruction (op : Operator) : Instruction := .integer op.operation

/-- The operators that need a divisor. -/
def divides : Operator → Bool
  | .div | .mod => true
  | _           => false

/-- The operators of a ring. -/
def isRing : Operator → Bool
  | .add | .sub | .mul => true
  | _                  => false

/-- What an operator makes of two integers if they have no bounds. -/
def exact : Operator → Int → Int → Int
  | .add, a, b => a + b
  | .sub, a, b => a - b
  | .mul, a, b => a * b
  | .div, a, b => a.tdiv b
  | .mod, a, b => a.fmod b
  | .max, a, b => Max.max a b
  | .min, a, b => Min.min a b

/-- **What an operator makes of two integers of 64 bits**: sums, differences and products are reduced to 64 bits,
quotients are rounded toward zero, and remainders are those of the quotient rounded down, with the sign of the divisor.
The one quotient that is out of range comes out as the least integer. -/
def apply : Operator → Int → Int → Int
  | .add, a, b => Number.wrap (a + b)
  | .sub, a, b => Number.wrap (a - b)
  | .mul, a, b => Number.wrap (a * b)
  | .div, a, b => if a = Number.int64Min ∧ b = -1 then Number.int64Min else a.tdiv b
  | .mod, a, b => a.fmod b
  | .max, a, b => Max.max a b
  | .min, a, b => Min.min a b

theorem apply_of_isRing {op : Operator} (h : op.isRing = true) (a b : Int) :
    op.apply a b = Number.wrap (op.exact a b) := by
  cases op <;> first | rfl | cases h

theorem inInt64_apply (op : Operator) {a b : Int} (ha : Number.inInt64 a = true) (hb : Number.inInt64 b = true)
    (hd : op.divides = true → b ≠ 0) : Number.inInt64 (op.apply a b) = true := by
  cases op with
  | add | sub | mul => exact Number.inInt64_wrap _
  | div =>
    rw [apply]
    split
    · decide
    · rename_i h
      exact Number.inInt64_tdiv ha h
  | mod => exact Number.inInt64_fmod hb (hd rfl) a
  | max =>
    rw [Number.inInt64_iff] at ha hb ⊢
    rw [apply]
    omega
  | min =>
    rw [Number.inInt64_iff] at ha hb ⊢
    rw [apply]
    omega

/-- **The instruction of an operator computes it**: the top integer is the right operand. -/
theorem run_operation {ρ : Type} [RandomSource ρ] (op : Operator) (o : Options) {m : Machine ρ} {a b : Int}
    {integers : Stack Int} (hi : m.integer = b :: a :: integers) (ha : Number.inInt64 a = true)
    (hd : op.divides = true → b ≠ 0) : op.operation.run o m = { m with integer := op.apply a b :: integers } := by
  cases op with
  | add | sub | mul | max | min => simp only [operation, IntegerOp.run, IntegerOp.binary, hi, apply]
  | mod =>
    have hb : b ≠ 0 := hd rfl
    simp only [operation, IntegerOp.run, IntegerOp.divide, hi, hb, if_false, apply]
  | div =>
    have hb : b ≠ 0 := hd rfl
    have hquotient : Number.wrap (a.tdiv b) = apply .div a b := by
      rw [apply]
      split
      · rename_i h
        obtain ⟨rfl, rfl⟩ := h
        decide
      · rename_i h
        exact Number.wrap_of_inInt64 (Number.inInt64_tdiv ha h)
    simp only [operation, IntegerOp.run, IntegerOp.divide, hi, hb, if_false, hquotient]

end Operator

/-- **An arithmetic expression.** -/
inductive Expression where
  | literal (l : Literal)
  | node (op : Operator) (left right : Expression)

namespace Expression

/-- The tokens of an expression, each operator after its operands. -/
def code : Expression → List Tree
  | .literal l          => [.atom l.token]
  | .node op left right => left.code ++ right.code ++ [.atom op.instruction.token]

/-- **The value of an expression.** -/
def value : Expression → Int
  | .literal l          => l.value
  | .node op left right => op.apply left.value right.value

/-- The value of an expression if integers have no bounds. -/
def exact : Expression → Int
  | .literal l          => l.value
  | .node op left right => op.exact left.exact right.exact

def operators : Expression → List Operator
  | .literal _          => []
  | .node op left right => op :: left.operators ++ right.operators

/-- No divisor is zero. -/
def Defined : Expression → Prop
  | .literal _          => True
  | .node op left right => left.Defined ∧ right.Defined ∧ (op.divides = true → right.value ≠ 0)

theorem inInt64_value : ∀ {e : Expression}, e.Defined → Number.inInt64 e.value = true
  | .literal l,  _            => Token.inInt64_of_classify l.classify
  | .node op _ _, ⟨hl, hr, hd⟩ => op.inInt64_apply (inInt64_value hl) (inInt64_value hr) hd

/-- Wrapping along the way does not change the residue. -/
theorem value_modEq_exact : ∀ {e : Expression}, (∀ op ∈ e.operators, op.isRing = true) →
    e.value ≡ e.exact [ZMOD 0x10000000000000000]
  | .literal _,          _ => Int.ModEq.refl _
  | .node op left right, h => by
    obtain ⟨hop, hrest⟩ := List.forall_mem_cons.1 h
    obtain ⟨hl, hr⟩ := List.forall_mem_append.1 hrest
    have hleft := value_modEq_exact hl
    have hright := value_modEq_exact hr
    rw [value, Operator.apply_of_isRing hop]
    refine (Number.wrap_modEq _).trans ?_
    cases op with
    | add => exact hleft.add hright
    | sub => exact hleft.sub hright
    | mul => exact hleft.mul hright
    | div | mod | max | min => cases hop

/-- Where no operator divides, no divisor is zero. -/
theorem defined_of_isRing : ∀ {e : Expression}, (∀ op ∈ e.operators, op.isRing = true) → e.Defined
  | .literal _,          _ => trivial
  | .node op left right, h => by
    obtain ⟨hop, hrest⟩ := List.forall_mem_cons.1 h
    obtain ⟨hl, hr⟩ := List.forall_mem_append.1 hrest
    refine ⟨defined_of_isRing hl, defined_of_isRing hr, fun hd => absurd hop ?_⟩
    revert hd
    cases op <;> decide

/-- **With sums, differences and products only, it is enough to wrap once.** -/
theorem value_eq_wrap_exact {e : Expression} (h : ∀ op ∈ e.operators, op.isRing = true) :
    e.value = Number.wrap e.exact :=
  Number.eq_wrap_of_modEq (inInt64_value (defined_of_isRing h)) (value_modEq_exact h)

end Expression

/-! ## Execution -/

namespace Machine

variable {ρ : Type}

/-- The machine once so many steps have come to these items and these integers, and to nothing else. -/
def arrived (m : Machine ρ) (exec : Stack Tree) (integers : Stack Int) (n : Nat) : Machine ρ :=
  { m with exec := exec, integer := integers, steps := m.steps + n }

theorem arrived_arrived (m : Machine ρ) (exec exec' : Stack Tree) (integers integers' : Stack Int) (n k : Nat) :
    (m.arrived exec integers n).arrived exec' integers' k = m.arrived exec' integers' (n + k) := by
  simp only [arrived, Nat.add_assoc]

variable [RandomSource ρ] {o : Options} {m : Machine ρ} {rest : Stack Tree}

theorem step_of_literal (l : Literal) (he : o.enables .integer = true) (hexec : m.exec = .atom l.token :: rest) :
    m.step o = some (.next (m.arrived rest (l.value :: m.integer) 1)) := by
  rw [step_of_exec hexec]
  simp only [execute, l.classify, pushEnabled, he, if_true]
  rfl

theorem step_of_operator {op : Operator} (ha : o.allows op.instruction = true)
    (hexec : m.exec = .atom op.instruction.token :: rest) {a b : Int} {integers : Stack Int}
    (hi : m.integer = b :: a :: integers) (hint : Number.inInt64 a = true) (hd : op.divides = true → b ≠ 0) :
    m.step o = some (.next (m.arrived rest (op.apply a b :: integers) 1)) := by
  have hinstruction : o.instruction? (.atom op.instruction.token) = some op.instruction := by
    refine Options.instruction?_token ha ?_ ?_ <;> cases op <;> rfl
  have hi : (m.popped rest).integer = b :: a :: integers := hi
  refine step_of_instruction hexec hinstruction ?_
  show Outcome.next (op.operation.run o (m.popped rest)) = .next (m.arrived rest (op.apply a b :: integers) 1)
  rw [op.run_operation o hi hint hd]
  rfl

/-- **The code of an expression pushes its value**, whatever is behind it and whatever is on INTEGER already. -/
theorem after?_code (he : o.enables .integer = true) : ∀ {e : Expression}, e.Defined →
    (∀ op ∈ e.operators, o.allows op.instruction = true) → ∀ {m : Machine ρ} {rest : Stack Tree},
    m.exec = e.code ++ rest → after? o e.code.length m = some (m.arrived rest (e.value :: m.integer) e.code.length)
  | .literal l,          _,            _,  m, rest, hexec => after?_of_step (step_of_literal l he hexec)
  | .node op left right, ⟨hl, hr, hd⟩, ha, m, rest, hexec => by
    obtain ⟨hop, hrest⟩ := List.forall_mem_cons.1 ha
    obtain ⟨hleft, hright⟩ := List.forall_mem_append.1 hrest
    rw [Expression.code, List.append_assoc, List.append_assoc] at hexec
    have h₁ := after?_code he hl hleft hexec
    generalize hm₁ : m.arrived _ _ _ = m₁ at h₁
    have hexec₁ : m₁.exec = right.code ++ .atom op.instruction.token :: rest := by rw [← hm₁]; rfl
    have h₂ := after?_code he hr hright hexec₁
    generalize hm₂ : m₁.arrived _ _ _ = m₂ at h₂
    have hexec₂ : m₂.exec = .atom op.instruction.token :: rest := by rw [← hm₂]; rfl
    have hi : m₂.integer = right.value :: left.value :: m.integer := by rw [← hm₂, ← hm₁]; rfl
    have h₃ := step_of_operator hop hexec₂ hi (Expression.inInt64_value hl) hd
    rw [Expression.code, List.length_append, List.length_append, Nat.add_assoc, after?_add _ h₁, after?_add _ h₂]
    have hlast : after? o 1 m₂ = _ := after?_of_step h₃
    refine hlast.trans ?_
    rw [← hm₂, ← hm₁, arrived_arrived, arrived_arrived]
    rfl

end Machine
end PushMachine
