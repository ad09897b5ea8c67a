import PushMachine.Interpreter.Instruction
import PushMachine.Proofs.Form
/-!
# The footprint of an instruction

`Instruction.uses` lists the stacks that an instruction can read or write: its own, those it asks for, and EXEC where it
gives to EXEC without asking.  An instruction is blind to every other stack, whatever is on it
(`Instruction.run_setStack`).
-/
namespace PushMachine

variable {ρ : Type}

/-! ## Stacks in use -/

namespace Instruction

/-- The instructions that give to EXEC without asking for it. -/
def executes : Instruction → Bool
  | .code .doKeep | .code .doPop | .code .choose => true
  | _                                            => false

/-- **The stacks that an instruction can read or write.** -/
def uses (i : Instruction) : List Kind := i.kind :: i.needs.map (·.1) ++ if i.executes then [.exec] else []

theorem kind_mem_uses (i : Instruction) : i.kind ∈ i.uses := List.mem_cons_self

theorem mem_uses_of_needs {i : Instruction} {p : Kind × Nat} (h : p ∈ i.needs) : p.1 ∈ i.uses :=
  List.mem_cons_of_mem _ (List.mem_append_left _ (List.mem_map.2 ⟨p, h, rfl⟩))

end Instruction

/-! ## Blindness to a stack -/

namespace Outcome

variable {ε : Type}

/-- The same outcome with another machine. -/
def map (f : Machine ρ → Machine ρ) : Outcome ε ρ → Outcome ε ρ
  | .next m       => .next (f m)
  | .stop cause m => .stop cause (f m)

@[simp] theorem machine_map (f : Machine ρ → Machine ρ) (out : Outcome ε ρ) : (out.map f).machine = f out.machine := by
  cases out <;> rfl

end Outcome

namespace Machine

theorem setStack_comm (m : Machine ρ) {j k : Kind} (h : j ≠ k) (xs : Stack j.Item) (ys : Stack k.Item) :
    (m.setStack j xs).setStack k ys = (m.setStack k ys).setStack j xs := by
  cases j <;> cases k <;> first | rfl | exact absurd rfl h

theorem setStack_comm₂ (m : Machine ρ) {j k l : Kind} (hj : l ≠ j) (hk : l ≠ k) (xs : Stack l.Item) (ys : Stack j.Item)
    (zs : Stack k.Item) :
    ((m.setStack l xs).setStack j ys).setStack k zs = ((m.setStack j ys).setStack k zs).setStack l xs := by
  rw [m.setStack_comm hj, setStack_comm _ hk]

@[simp] theorem supply_setStack (m : Machine ρ) (k : Kind) (xs : Stack k.Item) :
    (m.setStack k xs).supply = m.supply := rfl

@[simp] theorem bindings_setStack (m : Machine ρ) (k : Kind) (xs : Stack k.Item) :
    (m.setStack k xs).bindings = m.bindings := rfl

section Fields

variable {l : Kind} (m : Machine ρ) (xs : Stack l.Item)

theorem integer_setStack (h : l ≠ .integer) : (m.setStack l xs).integer = m.integer := m.stack_setStack_of_ne h.symm xs

theorem boolean_setStack (h : l ≠ .boolean) : (m.setStack l xs).boolean = m.boolean := m.stack_setStack_of_ne h.symm xs

theorem name_setStack (h : l ≠ .name) : (m.setStack l xs).name = m.name := m.stack_setStack_of_ne h.symm xs

theorem exec_setStack (h : l ≠ .exec) : (m.setStack l xs).exec = m.exec := m.stack_setStack_of_ne h.symm xs

end Fields

section Forms

variable {j k l : Kind} (m : Machine ρ) (xs : Stack l.Item)

theorem move_setStack (hj : l ≠ j) (hk : l ≠ k) (accepts : j.Item → Bool) (f : j.Item → k.Item) :
    (m.setStack l xs).move j k accepts f = (m.move j k accepts f).setStack l xs := by
  unfold move
  rw [m.stack_setStack_of_ne hj.symm]
  split
  · split
    · rw [m.setStack_comm hj, stack_setStack_of_ne _ hk.symm, setStack_comm _ hk]
    · rfl
  · rfl

theorem merge_setStack (hj : l ≠ j) (hk : l ≠ k) (accepts : j.Item → j.Item → Bool) (f : j.Item → j.Item → k.Item) :
    (m.setStack l xs).merge j k accepts f = (m.merge j k accepts f).setStack l xs := by
  unfold merge
  rw [m.stack_setStack_of_ne hj.symm]
  split
  · split
    · rw [m.setStack_comm hj, stack_setStack_of_ne _ hk.symm, setStack_comm _ hk]
    · rfl
  · rfl

theorem pushDrawn_setStack (hk : l ≠ k) (x : k.Item) (supply : Supply ρ) :
    (m.setStack l xs).pushDrawn k x supply = (m.pushDrawn k x supply).setStack l xs := by
  unfold pushDrawn
  rw [m.stack_setStack_of_ne hk.symm, m.setStack_comm hk]
  rfl

end Forms
end Machine

theorem Instruction.ne_of_not_mem_uses {i : Instruction} {j l : Kind} (hl : l ∉ i.uses) (hj : j ∈ i.uses) : l ≠ j :=
  fun h => hl (h ▸ hj)

open Instruction (ne_of_not_mem_uses kind_mem_uses mem_uses_of_needs)

section Blind

variable {l : Kind} (o : Options) (m : Machine ρ) (xs : Stack l.Item)

/-! ### Stack manipulations -/

namespace StackOp

variable {k : Kind}

theorem withDepth_setStack (hi : l ≠ .integer) (hk : l ≠ k) (act : Int → Stack k.Item → Stack k.Item) :
    withDepth k act (m.setStack l xs) = (withDepth k act m).setStack l xs := by
  unfold withDepth
  rw [m.integer_setStack xs hi]
  split
  · rfl
  · rename_i depth rest hd
    have hp : ({ m.setStack l xs with integer := rest } : Machine ρ) = (m.setStack .integer rest).setStack l xs :=
      m.setStack_comm hi xs rest
    have hq : ({ m with integer := rest } : Machine ρ) = m.setStack .integer rest := rfl
    dsimp only
    rw [hp, hq, Machine.stack_setStack_of_ne _ hk.symm]
    rcases (m.setStack .integer rest).stack k with _ | ⟨y, ys⟩
    · rfl
    · exact Machine.setStack_comm _ hk xs _

theorem defineTop_setStack (hn : l ≠ .name) (hk : l ≠ k) :
    defineTop k (m.setStack l xs) = (defineTop k m).map (·.setStack l xs) := by
  unfold defineTop
  rw [m.name_setStack xs hn]
  split
  · rfl
  · rename_i key names _
    have hp : ({ m.setStack l xs with name := names } : Machine ρ) = (m.setStack .name names).setStack l xs :=
      m.setStack_comm hn xs names
    have hq : ({ m with name := names } : Machine ρ) = m.setStack .name names := rfl
    dsimp only
    rw [hp, hq, Machine.stack_setStack_of_ne _ hk.symm]
    rcases (m.setStack .name names).stack k with _ | ⟨x, ys⟩
    · rfl
    · dsimp only
      rw [Machine.setStack_comm _ hk]
      rcases Tree.ofItem k x with e | t <;> rfl

theorem run_setStack {op : StackOp} (hl : l ∉ (Instruction.stack k op).uses) :
    op.run o k (m.setStack l xs) = (op.run o k m).map (·.setStack l xs) := by
  have hk : l ≠ k := ne_of_not_mem_uses hl (kind_mem_uses _)
  have hneeds : ∀ p ∈ op.needs k, l ≠ p.1 := fun p hp => ne_of_not_mem_uses hl (mem_uses_of_needs (i := .stack k op) hp)
  cases op with
  | equal =>
    have hb : l ≠ .boolean := hneeds (.boolean, 0) (by simp [needs])
    simp only [run, equalTop_eq]
    exact congrArg Outcome.next (m.merge_setStack xs hk hb _ _)
  | define => exact defineTop_setStack m xs (hneeds (.name, 1) (by simp [needs])) hk
  | dup | flush | pop | rot | swap =>
    simp only [run, m.stack_setStack_of_ne hk.symm]
    exact congrArg Outcome.next (m.setStack_comm hk xs _)
  | stackdepth =>
    have hi : l ≠ .integer := hneeds (.integer, 0) (by simp [needs])
    simp only [run, m.stack_setStack_of_ne hk.symm]
    split
    · rw [m.integer_setStack xs hi]
      exact congrArg Outcome.next (m.setStack_comm hi xs _)
    · rfl
  | shove | yank | yankdup =>
    have hi : l ≠ .integer := hneeds (.integer, _) (List.mem_cons_self)
    exact congrArg Outcome.next (withDepth_setStack m xs hi hk _)

end StackOp

/-! ### Literals -/

theorem FloatOp.ofInteger_setStack (hi : l ≠ .integer) (hf : l ≠ .float) :
    ofInteger (m.setStack l xs) = (ofInteger m).map (·.setStack l xs) := by
  unfold ofInteger
  rw [m.integer_setStack xs hi]
  split
  · rename_i n rest _
    split
    · have hfloats : (m.setStack l xs).float = m.float := m.stack_setStack_of_ne hf.symm xs
      rw [hfloats]
      exact congrArg Outcome.next (m.setStack_comm₂ hi hf xs rest _)
    · exact congrArg (Outcome.stop _) (m.setStack_comm hi xs rest)
  · rfl

section Literals

variable [RandomSource ρ]

theorem IntegerOp.run_setStack {op : IntegerOp} (hl : l ∉ (Instruction.integer op).uses) :
    op.run o (m.setStack l xs) = (op.run o m).setStack l xs := by
  have hi : l ≠ .integer := ne_of_not_mem_uses hl (kind_mem_uses _)
  cases op with
  | add | sub | mul | max | min => simp only [run, binary_eq]; exact m.merge_setStack xs hi hi _ _
  | div | mod => simp only [run, divide_eq]; exact m.merge_setStack xs hi hi _ _
  | less | greater =>
    simp only [run, compare_eq]
    exact m.merge_setStack xs hi (ne_of_not_mem_uses hl (by decide)) _ _
  | fromBoolean => simp only [run, ofBoolean_eq]; exact m.move_setStack xs (ne_of_not_mem_uses hl (by decide)) hi _ _
  | fromFloat => simp only [run, ofFloat_eq]; exact m.move_setStack xs (ne_of_not_mem_uses hl (by decide)) hi _ _
  | rand =>
    simp only [run, random, Machine.supply_setStack]
    rcases Draw.between o.minInteger o.maxInteger m.supply.source with ⟨n, source⟩
    exact m.pushDrawn_setStack xs hi n _

theorem FloatOp.run_setStack {op : FloatOp} (hl : l ∉ (Instruction.float op).uses) :
    op.run o (m.setStack l xs) = (op.run o m).map (·.setStack l xs) := by
  have hf : l ≠ .float := ne_of_not_mem_uses hl (kind_mem_uses _)
  cases op with
  | add | sub | mul | max | min =>
    simp only [run, binary_eq]
    exact congrArg Outcome.next (m.merge_setStack xs hf hf _ _)
  | div | mod =>
    simp only [run, divide_eq]
    exact congrArg Outcome.next (m.merge_setStack xs hf hf _ _)
  | less | greater =>
    simp only [run, compare_eq]
    exact congrArg Outcome.next (m.merge_setStack xs hf (ne_of_not_mem_uses hl (by decide)) _ _)
  | sin | cos | tan =>
    simp only [run, unary_eq]
    exact congrArg Outcome.next (m.move_setStack xs hf hf _ _)
  | fromBoolean =>
    simp only [run, ofBoolean_eq]
    exact congrArg Outcome.next (m.move_setStack xs (ne_of_not_mem_uses hl (by decide)) hf _ _)
  | fromInteger => exact ofInteger_setStack m xs (ne_of_not_mem_uses hl (by decide)) hf
  | rand =>
    simp only [run, random, Machine.supply_setStack]
    rcases Draw.uniform o.minFloat o.maxFloat m.supply.source with ⟨x, source⟩
    exact congrArg Outcome.next (m.pushDrawn_setStack xs hf x _)

theorem BooleanOp.run_setStack {op : BooleanOp} (hl : l ∉ (Instruction.boolean op).uses) :
    op.run (m.setStack l xs) = (op.run m).setStack l xs := by
  have hb : l ≠ .boolean := ne_of_not_mem_uses hl (kind_mem_uses _)
  cases op with
  | and | or => simp only [run, binary_eq]; exact m.merge_setStack xs hb hb _ _
  | not => simp only [run, negate_eq]; exact m.move_setStack xs hb hb _ _
  | fromFloat => simp only [run, ofFloat_eq]; exact m.move_setStack xs (ne_of_not_mem_uses hl (by decide)) hb _ _
  | fromInteger => simp only [run, ofInteger_eq]; exact m.move_setStack xs (ne_of_not_mem_uses hl (by decide)) hb _ _
  | rand =>
    simp only [run, random, Machine.supply_setStack]
    rcases Draw.chance 0.5 m.supply.source with ⟨b, source⟩
    exact m.pushDrawn_setStack xs hb b _

theorem NameOp.run_setStack {op : NameOp} (hl : l ∉ (Instruction.name op).uses) :
    op.run (m.setStack l xs) = (op.run m).map (·.setStack l xs) := by
  have hn : l ≠ .name := ne_of_not_mem_uses hl (kind_mem_uses _)
  cases op with
  | quote => rfl
  | rand =>
    simp only [run, newName, Machine.supply_setStack]
    rcases Supply.newName m.supply with ⟨_ | name, supply⟩
    · rfl
    · exact congrArg Outcome.next (m.pushDrawn_setStack xs hn name supply)
  | randBoundName =>
    simp only [run, boundName, Machine.supply_setStack, Machine.bindings_setStack]
    rcases m.bindings.names with _ | ⟨name, names⟩
    · rfl
    · dsimp only
      rcases Draw.choose name names m.supply.source with ⟨chosen, source⟩
      exact congrArg Outcome.next (m.pushDrawn_setStack xs hn chosen _)

end Literals

/-! ### Code -/

namespace ExecOp

theorem choice_setStack (hb : l ≠ .boolean) (he : l ≠ .exec) : choice (m.setStack l xs) = (choice m).setStack l xs := by
  unfold choice
  rw [m.boolean_setStack xs hb, m.exec_setStack xs he]
  split
  · rename_i c booleans a b rest _ _
    exact m.setStack_comm₂ hb he xs booleans ((if c then a else b) :: rest)
  · rfl

theorem distribute_setStack (he : l ≠ .exec) : distribute o (m.setStack l xs) = (distribute o m).setStack l xs := by
  unfold distribute
  rw [m.exec_setStack xs he]
  split
  · split
    · exact m.setStack_comm he xs _
    · rfl
  · rfl

theorem recur_setStack (he : l ≠ .exec) : recur o (m.setStack l xs) = (recur o m).setStack l xs := by
  unfold recur
  rw [m.exec_setStack xs he]
  split
  · split
    · exact m.setStack_comm he xs _
    · rfl
  · rfl

theorem range_setStack (hi : l ≠ .integer) (he : l ≠ .exec) :
    range o (m.setStack l xs) = (range o m).map (·.setStack l xs) := by
  unfold range
  rw [m.integer_setStack xs hi, m.exec_setStack xs he]
  split
  · split
    · exact congrArg Outcome.next (m.setStack_comm₂ hi he xs _ _)
    · split
      · rfl
      · split
        · exact congrArg Outcome.next (m.setStack_comm₂ hi he xs _ _)
        · rfl
  · rfl

theorem countWith_setStack (hi : l ≠ .integer) (he : l ≠ .exec) (wrapBody : Tree → Tree) :
    countWith o wrapBody (m.setStack l xs) = (countWith o wrapBody m).map (·.setStack l xs) := by
  unfold countWith
  rw [m.integer_setStack xs hi, m.exec_setStack xs he]
  split
  · split
    · rfl
    · split
      · rfl
      · split
        · exact congrArg Outcome.next (m.setStack_comm₂ hi he xs _ _)
        · rfl
  · rfl

theorem run_setStack {op : ExecOp} (hl : l ∉ (Instruction.exec op).uses) :
    op.run o (m.setStack l xs) = (op.run o m).map (·.setStack l xs) := by
  have he : l ≠ .exec := ne_of_not_mem_uses hl (kind_mem_uses _)
  cases op with
  | choose => exact congrArg Outcome.next (choice_setStack m xs (ne_of_not_mem_uses hl (by decide)) he)
  | k => simp only [run, constant_eq]; exact congrArg Outcome.next (m.merge_setStack xs he he _ _)
  | s => exact congrArg Outcome.next (distribute_setStack o m xs he)
  | y => exact congrArg Outcome.next (recur_setStack o m xs he)
  | doRange => exact range_setStack o m xs (ne_of_not_mem_uses hl (by decide)) he
  | doCount | doTimes => exact countWith_setStack o m xs (ne_of_not_mem_uses hl (by decide)) he _

end ExecOp

namespace CodeOp

-- these give to a stack that they do not look into, which rewriting would not keep apart from the stack `l`
theorem pickItem_setStack (hi : l ≠ .integer) (hc : l ≠ .code) :
    pickItem (m.setStack l xs) = (pickItem m).setStack l xs := by
  obtain ⟨⟨integers, _, _, _, _, code⟩, _, _, _, _⟩ := m
  cases l with
  | integer => exact absurd rfl hi
  | code => exact absurd rfl hc
  | float | boolean | name | exec =>
    rcases integers with _ | ⟨n, integers⟩ <;> rcases code with _ | ⟨top, rest⟩ <;> rfl

theorem pushDefinition_setStack (hn : l ≠ .name) (hc : l ≠ .code) :
    pushDefinition (m.setStack l xs) = (pushDefinition m).setStack l xs := by
  obtain ⟨⟨_, _, _, names, _, _⟩, bindings, _, _, _⟩ := m
  cases l with
  | name => exact absurd rfl hn
  | code => exact absurd rfl hc
  | integer | float | boolean | exec =>
    rcases names with _ | ⟨name, names⟩
    · rfl
    · simp only [pushDefinition, Machine.setStack, Stacks.set]
      split <;> rfl

theorem executeTop_setStack (hc : l ≠ .code) (he : l ≠ .exec) :
    executeTop (m.setStack l xs) = (executeTop m).setStack l xs := by
  obtain ⟨⟨_, _, _, _, _, code⟩, _, _, _, _⟩ := m
  cases l with
  | code => exact absurd rfl hc
  | exec => exact absurd rfl he
  | integer | float | boolean | name => rcases code with _ | ⟨top, rest⟩ <;> rfl

theorem choice_setStack (hb : l ≠ .boolean) (hc : l ≠ .code) (he : l ≠ .exec) :
    choice (m.setStack l xs) = (choice m).setStack l xs := by
  obtain ⟨⟨_, _, booleans, _, _, code⟩, _, _, _, _⟩ := m
  cases l with
  | boolean => exact absurd rfl hb
  | code => exact absurd rfl hc
  | exec => exact absurd rfl he
  | integer | float | name =>
    rcases booleans with _ | ⟨c, booleans⟩ <;> rcases code with _ | ⟨top, _ | ⟨second, rest⟩⟩ <;> rfl

theorem ofStack_setStack {k : Kind} (hk : l ≠ k) (hc : l ≠ .code) :
    ofStack k (m.setStack l xs) = (ofStack k m).map (·.setStack l xs) := by
  unfold ofStack
  rw [m.stack_setStack_of_ne hk.symm]
  split
  · rfl
  · rename_i x ys _
    dsimp only
    rw [m.setStack_comm hk, show ((m.setStack k ys).setStack l xs).code = (m.setStack k ys).code from
      Machine.stack_setStack_of_ne _ hc.symm xs]
    rcases Tree.ofItem k x with e | t
    · rfl
    · exact congrArg Outcome.next (Machine.setStack_comm _ hc xs _)

theorem random_setStack [RandomSource ρ] (hi : l ≠ .integer) (hc : l ≠ .code) :
    random o (m.setStack l xs) = (random o m).map (·.setStack l xs) := by
  unfold random
  rw [m.integer_setStack xs hi, m.supply_setStack]
  split
  · rfl
  · rename_i n integers _
    split
    · rfl
    · generalize RandomCode.upTo o _ m.supply = made
      cases l with
      | integer => exact absurd rfl hi
      | code => exact absurd rfl hc
      | float | boolean | name | exec => rcases made with ⟨e | t, supply⟩ <;> rfl

theorem run_setStack [RandomSource ρ] {op : CodeOp} (hl : l ∉ (Instruction.code op).uses) :
    op.run o (m.setStack l xs) = (op.run o m).map (·.setStack l xs) := by
  have hc : l ≠ .code := ne_of_not_mem_uses hl (kind_mem_uses _)
  have hne : ∀ {j : Kind}, j ∈ (Instruction.code op).uses → l ≠ j := fun hj => ne_of_not_mem_uses hl hj
  cases op with
  | append | cons | list =>
    simp only [run, binary_eq]
    exact congrArg Outcome.next (m.merge_setStack xs hc hc _ _)
  | car | cdr =>
    simp only [run, unary_eq]
    exact congrArg Outcome.next (m.move_setStack xs hc hc _ _)
  | atom | null =>
    simp only [run, test_eq]
    exact congrArg Outcome.next (m.move_setStack xs hc (hne (by decide)) _ _)
  | member =>
    simp only [run, testMember_eq]
    exact congrArg Outcome.next (m.merge_setStack xs hc (hne (by decide)) _ _)
  | length | size =>
    simp only [run, measure_eq]
    exact congrArg Outcome.next (m.move_setStack xs hc (hne (by decide)) _ _)
  | nth => exact congrArg Outcome.next (pickItem_setStack m xs (hne (by decide)) hc)
  | definition => exact congrArg Outcome.next (pushDefinition_setStack m xs (hne (by decide)) hc)
  | doKeep => exact congrArg Outcome.next (executeTop_setStack m xs hc (hne (by decide)))
  | doPop =>
    simp only [run, executePopped_eq]
    exact congrArg Outcome.next (m.move_setStack xs hc (hne (by decide)) _ _)
  | choose => exact congrArg Outcome.next (choice_setStack m xs (hne (by decide)) hc (hne (by decide)))
  | quote =>
    simp only [run, quoteNext_eq]
    exact congrArg Outcome.next (m.move_setStack xs (hne (by decide)) hc _ _)
  | noop => rfl
  | fromBoolean | fromFloat | fromInteger | fromName => exact ofStack_setStack m xs (hne (by decide)) hc
  | rand => exact random_setStack o m xs (hne (by decide)) hc

end CodeOp

/-! ### All instructions -/

/-- **An instruction is blind to the stacks that it does not use**: with other items on such a stack it does the same,
and leaves the items there. -/
theorem Instruction.run_setStack [RandomSource ρ] {i : Instruction} (hl : l ∉ i.uses) :
    i.run o (m.setStack l xs) = (i.run o m).map (·.setStack l xs) := by
  cases i with
  | stack k op => exact op.run_setStack o m xs hl
  | integer op => exact congrArg Outcome.next (op.run_setStack o m xs hl)
  | float op   => exact op.run_setStack o m xs hl
  | boolean op => exact congrArg Outcome.next (op.run_setStack m xs hl)
  | name op    => exact op.run_setStack m xs hl
  | exec op    => exact op.run_setStack o m xs hl
  | code op    => exact op.run_setStack o m xs hl

end Blind

/-- A stack that an instruction does not use stays as it is. -/
theorem Instruction.stack_run [RandomSource ρ] {i : Instruction} {k : Kind} (hk : k ∉ i.uses) (o : Options)
    (m : Machine ρ) : (i.run o m).machine.stack k = m.stack k := by
  have h := i.run_setStack o m (m.stack k) hk
  rw [m.setStack_stack] at h
  rw [h, Outcome.machine_map, Machine.stack_setStack_self]

end PushMachine
