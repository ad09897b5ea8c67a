import PushMachine.Proofs.Interpreter.Access
import PushMachine.Proofs.Precondition.Code
/-!
# Instructions on an interpreter

An instruction that does not find what it asks for does nothing, to an interpreter as to a machine
(`Instruction.run_of_not_meets`).  One that does find it does to the interpreter what it does to the machine
(`Instruction.body_interpreter`): every stack that it looks up is there, and holds what it takes.
-/
namespace PushMachine

variable {ρ : Type} {o : Options} {m : Machine ρ}

open Effect
open Interpreter (meets_singleton meets_pair)

/-! ## What a ready instruction finds -/

section Needs

open Machine (stackOk_iff stackOk_zero)

theorem one_le_length_of_head? {α : Type} {s : List α} {P : α → Prop} (h : ∃ x ∈ s.head?, P x) : 1 ≤ s.length := by
  obtain ⟨x, hx, -⟩ := h
  exact List.length_pos_of_mem (List.mem_of_mem_head? hx)

theorem StackOp.meets_of_ready (hm : m.Vacant o) {k : Kind} {op : StackOp} (hr : op.Ready o k m) :
    (m.interpreter o).Meets (op.needs k) := by
  cases op with
  | dup | pop => exact meets_singleton.2 (hm.stackOk (Nat.le_refl 1) hr)
  | swap | rot | flush => exact Interpreter.meets_nil _
  | equal => exact meets_pair.2 ⟨hm.stackOk (by simp) hr.1, stackOk_zero hr.2⟩
  | stackdepth => exact meets_singleton.2 (stackOk_zero hr)
  | shove | yank | yankdup =>
    obtain ⟨hi, hk⟩ := hr
    have hpos : 1 ≤ (m.stack k).length := by split at hk <;> omega
    refine meets_pair.2 ⟨?_, hm.stackOk (Nat.le_refl 1) hpos⟩
    by_cases he : k = .integer
    · subst he
      exact hm.stackOk (by decide) hk
    · rw [if_neg he]
      exact hm.stackOk (k := .integer) (by decide) hi
  | define => exact meets_pair.2 ⟨hm.stackOk (k := .name) (by decide) hr.1, hm.stackOk (Nat.le_refl 1) hr.2⟩

theorem IntegerOp.meets_of_ready (hm : m.Vacant o) {op : IntegerOp} (hr : op.Ready o m) :
    (m.interpreter o).Meets op.needs := by
  cases op with
  | add | sub | mul | max | min => exact meets_singleton.2 (hm.stackOk (by decide) hr)
  | div | mod => exact meets_singleton.2 (hm.stackOk (by decide) hr.1)
  | less | greater => exact meets_pair.2 ⟨hm.stackOk (by decide) hr.1, stackOk_zero hr.2⟩
  | fromBoolean => exact meets_singleton.2 (hm.stackOk (by decide) hr)
  | fromFloat => exact meets_singleton.2 (hm.stackOk (by decide) (one_le_length_of_head? hr))
  | rand => exact Interpreter.meets_nil _

theorem FloatOp.meets_of_ready (hm : m.Vacant o) {op : FloatOp} (hr : op.Ready o m) :
    (m.interpreter o).Meets op.needs := by
  cases op with
  | add | sub | mul | max | min => exact meets_singleton.2 (hm.stackOk (by decide) hr)
  | div | mod => exact meets_singleton.2 (hm.stackOk (by decide) hr.1)
  | less | greater => exact meets_pair.2 ⟨hm.stackOk (by decide) hr.1, stackOk_zero hr.2⟩
  | sin | cos | tan => exact meets_singleton.2 (hm.stackOk (by decide) (one_le_length_of_head? hr))
  | fromBoolean | fromInteger => exact meets_singleton.2 (hm.stackOk (by decide) hr)
  | rand => exact Interpreter.meets_nil _

theorem BooleanOp.meets_of_ready (hm : m.Vacant o) {op : BooleanOp} (hr : op.Ready m) :
    (m.interpreter o).Meets op.needs := by
  cases op with
  | and | or | not | fromFloat | fromInteger => exact meets_singleton.2 (hm.stackOk (by decide) hr)
  | rand => exact Interpreter.meets_nil _

theorem ExecOp.meets_of_ready (hm : m.Vacant o) {op : ExecOp} (hr : op.Ready o m) :
    (m.interpreter o).Meets op.needs := by
  have hexec : ∀ {n : Nat}, n ≤ m.exec.length → (m.interpreter o).stackOk .exec n = true := fun hn =>
    stackOk_iff.2 ⟨o.enables_exec, hn⟩
  have hints : ∀ {n : Nat}, 1 ≤ n → n ≤ m.integer.length → (m.interpreter o).stackOk .integer n = true := fun hpos hn =>
    hm.stackOk (k := .integer) hpos hn
  cases op with
  | choose => exact meets_pair.2 ⟨hm.stackOk (k := .boolean) (by decide) hr.1, hexec hr.2⟩
  | k => exact meets_singleton.2 (hexec hr)
  | s =>
    obtain ⟨a, b, c, rest, he, -⟩ := hr
    exact meets_singleton.2 (hexec (by rw [he]; simp))
  | y => exact meets_singleton.2 (hexec (one_le_length_of_head? hr))
  | doRange =>
    obtain ⟨last, current, integers, hi, hb⟩ := hr
    exact meets_pair.2 ⟨hints (by decide) (by rw [hi]; simp), hexec (one_le_length_of_head? hb)⟩
  | doCount | doTimes =>
    obtain ⟨n, -, hb⟩ := id hr
    exact meets_pair.2 ⟨hints (by decide) (one_le_length_of_head? hr), hexec (one_le_length_of_head? hb)⟩

theorem CodeOp.meets_of_ready (hm : m.Vacant o) {op : CodeOp} (hr : op.Ready o m) :
    (m.interpreter o).Meets op.needs := by
  cases op with
  | append | cons | list =>
    obtain ⟨top, second, rest, hc, -⟩ := hr
    exact meets_singleton.2 (hm.stackOk (k := .code) (by decide) (by rw [Machine.stack, Stacks.get, hc]; simp))
  | car | cdr | doKeep | doPop => exact meets_singleton.2 (hm.stackOk (by decide) hr)
  | atom | null | member | length | size => exact meets_pair.2 ⟨hm.stackOk (by decide) hr.1, stackOk_zero hr.2⟩
  | nth | choose => exact meets_pair.2 ⟨hm.stackOk (by decide) hr.1, hm.stackOk (by decide) hr.2⟩
  | definition | quote | rand => exact meets_singleton.2 (hm.stackOk (by decide) (one_le_length_of_head? hr))
  | noop => exact Interpreter.meets_nil _
  | fromBoolean | fromFloat | fromInteger | fromName => exact meets_singleton.2 (hm.stackOk (by decide) hr)

/-- An instruction that is ready finds everything that it asks for. -/
theorem Instruction.meets_of_ready (hm : m.Vacant o) {i : Instruction} (hr : i.Ready o m) :
    (m.interpreter o).Meets i.needs := by
  cases i with
  | stack k op => exact op.meets_of_ready hm hr
  | integer op => exact op.meets_of_ready hm hr
  | float op   => exact op.meets_of_ready hm hr
  | boolean op => exact op.meets_of_ready hm hr
  | name op    => exact Interpreter.meets_nil _
  | exec op    => exact op.meets_of_ready hm hr
  | code op    => exact op.meets_of_ready hm hr

/-- **One that does not find it does nothing.** -/
theorem Instruction.run_of_not_meets [RandomSource ρ] (hm : m.Vacant o) {i : Instruction}
    (hn : ¬ (m.interpreter o).Meets i.needs) : i.run o m = .next m :=
  i.run_of_not_ready o m fun hr => hn (i.meets_of_ready hm hr)

end Needs

/-! ## What an instruction does once it has asked -/

section Bodies

/-- A stack that was asked for is there and holds so much. -/
theorem Machine.exists_of_stackOk {k : Kind} (h : (m.interpreter o).stackOk k (1 : Nat) = true) :
    o.enables k = true ∧ ∃ x xs, m.stack k = x :: xs := by
  obtain ⟨he, hl⟩ := stackOk_iff.1 h
  exact ⟨he, List.exists_cons_of_length_pos hl⟩

theorem Machine.exists_of_stackOk_two {k : Kind} (h : (m.interpreter o).stackOk k (2 : Nat) = true) :
    o.enables k = true ∧ ∃ x y xs, m.stack k = x :: y :: xs := by
  obtain ⟨he, hl⟩ := stackOk_iff.1 h
  obtain ⟨x, ys, hx⟩ := List.exists_cons_of_length_pos (Nat.lt_of_succ_lt hl)
  obtain ⟨y, xs, rfl⟩ : ∃ y xs, ys = y :: xs := by
    rw [hx, List.length_cons] at hl
    exact List.exists_cons_of_length_pos (Nat.lt_of_succ_lt_succ hl)
  exact ⟨he, x, y, xs, hx⟩

open Machine (exists_of_stackOk exists_of_stackOk_two stackOk_iff)

namespace Effect

variable {j k : Kind}

theorem ifTop_convert_interpreter (hj : (m.interpreter o).stackOk j (1 : Nat) = true) (hk : o.enables k = true)
    (accepts : j.Item → Bool) (f : j.Item → k.Item) :
    ifTop j accepts (convert j k f) (m.interpreter o) = (.ok (), (m.move j k accepts f).interpreter o) := by
  obtain ⟨he, x, xs, hx⟩ := exists_of_stackOk hj
  rw [ifTop, bind_ok (peek_interpreter he hx)]
  cases ha : accepts x with
  | true =>
    refine (convert_interpreter hj hk f).trans ?_
    rw [Machine.move_of_ready f hx rfl, Machine.move_of_ready f hx ha]
  | false =>
    have hnot : ¬ m.MoveReady j accepts := fun ⟨y, hy, hacc⟩ => by
      rw [hx, List.head?_cons, Option.mem_some] at hy
      rw [← hy, ha] at hacc
      cases hacc
    rw [Machine.move_of_not_ready f hnot]
    rfl

theorem ifTop_combine_interpreter (hj : (m.interpreter o).stackOk j (2 : Nat) = true) (hk : o.enables k = true)
    (accepts : j.Item → Bool) (f : j.Item → j.Item → k.Item) :
    ifTop j accepts (combine j k f) (m.interpreter o)
      = (.ok (), (m.merge j k (fun _ b => accepts b) f).interpreter o) := by
  obtain ⟨he, b, a, xs, hx⟩ := exists_of_stackOk_two hj
  rw [ifTop, bind_ok (peek_interpreter he hx)]
  cases hb : accepts b with
  | true =>
    refine (combine_interpreter hj hk f).trans ?_
    rw [Machine.merge_of_ready f hx rfl, Machine.merge_of_ready f hx hb]
  | false =>
    have hnot : ¬ m.MergeReady j fun _ b => accepts b := fun ⟨c, d, ys, hc, hacc⟩ => by
      rw [hx] at hc
      cases hc
      exact absurd (hb.symm.trans hacc) (by decide)
    rw [Machine.merge_of_not_ready f hnot]
    rfl

/-- What is drawn is put on a stack. -/
theorem draw_interpreter (h : o.enables k = true) (m : Machine ρ) (d : ρ → k.Item × ρ) :
    (do give k (← generate (Generator.draw d)) : Effect ρ Unit) (m.interpreter o)
      = (.ok (), (m.pushDrawn k (d m.supply.source).1 { m.supply with source := (d m.supply.source).2 }).interpreter o) := by
  have hdraw : Generator.draw d m.supply = (.ok (d m.supply.source).1, { m.supply with source := (d m.supply.source).2 }) :=
    rfl
  rw [bind_ok (generate_interpreter_ok hdraw), give_interpreter h]
  rfl

end Effect

namespace StackOp

variable {k : Kind}

/-- A depth is there, and the stack holds something beside it. -/
theorem withDepth_of_meets
    (hn : (m.interpreter o).Meets [(Kind.integer, if k = .integer then 2 else 1), (k, 1)]) :
    o.enables .integer = true ∧ o.enables k = true ∧ ∃ depth rest x xs, m.integer = depth :: rest ∧
      (m.setStack .integer rest).stack k = x :: xs ∧
      ∀ act, withDepth k act m = (m.setStack .integer rest).setStack k (act depth (x :: xs)) := by
  obtain ⟨hi, hk⟩ := meets_pair.1 hn
  obtain ⟨hei, hli⟩ := stackOk_iff.1 hi
  obtain ⟨hek, hlk⟩ := stackOk_iff.1 hk
  have hpos : 0 < m.integer.length := by
    change _ ≤ m.integer.length at hli
    split at hli <;> omega
  obtain ⟨depth, rest, hd⟩ := List.exists_cons_of_length_pos hpos
  have hlen := length_stack_popped (j := .integer) k hd
  have hrest : 0 < ((m.setStack .integer rest).stack k).length := by
    by_cases he : k = .integer
    · subst he
      rw [if_pos rfl] at hli hlen
      change 2 ≤ (m.stack .integer).length at hli
      omega
    · rw [if_neg he] at hlen
      omega
  obtain ⟨x, xs, hx⟩ := List.exists_cons_of_length_pos hrest
  refine ⟨hei, hek, depth, rest, x, xs, hd, hx, fun act => ?_⟩
  have hx' : ({ m with integer := rest } : Machine ρ).stack k = x :: xs := hx
  simp only [withDepth, hd, hx']
  rfl

theorem body_interpreter (op : StackOp) (hk : o.enables k = true) (hname : op = .define → k ≠ .name)
    (hn : (m.interpreter o).Meets (op.needs k)) :
    op.body k (m.interpreter o) = (op.run o k m).result .fault o := by
  cases op with
  | equal =>
    obtain ⟨htwo, hb⟩ := meets_pair.1 hn
    have hb := (stackOk_iff.1 hb).1
    rw [run, equalTop_eq, hb]
    exact combine_interpreter htwo hb k.same
  | define =>
    obtain ⟨hkey, hitem⟩ := meets_pair.1 hn
    obtain ⟨hen, key, names, hnames⟩ := exists_of_stackOk hkey
    obtain ⟨-, x, xs, hx⟩ := exists_of_stackOk hitem
    have hpopped : (m.setStack .name names).stack k = x :: xs := (m.stack_setStack_of_ne (hname rfl) names).trans hx
    have hpopped' : ({ m with name := names } : Machine ρ).stack k = x :: xs := hpopped
    have hnames' : m.name = key :: names := hnames
    rw [body, bind_ok (take_interpreter hen hnames), bind_ok (take_interpreter hk hpopped), run, defineTop, hnames']
    simp only [hpopped']
    cases ht : Tree.ofItem k x with
    | ok t => rw [bind_ok (ofExcept_ok rfl _)]; rfl
    | error f => rw [bind_error (ofExcept_error rfl _)]; rfl
  | dup => exact update_interpreter hk m Stack.dup
  | flush => exact update_interpreter hk m fun _ => []
  | pop =>
    obtain ⟨-, x, xs, hx⟩ := exists_of_stackOk (meets_singleton.1 hn)
    rw [body, bind_ok (take_interpreter hk hx), run, hx]
    rfl
  | rot => exact update_interpreter hk m Stack.rot
  | swap => exact update_interpreter hk m Stack.swap
  | shove =>
    obtain ⟨hei, -, depth, rest, x, xs, hd, hx, hrun⟩ := withDepth_of_meets hn
    rw [body, bind_ok (take_interpreter hei (k := .integer) hd), bind_ok (take_interpreter hk hx), update_interpreter hk,
      run, hrun, Machine.stack_setStack_self, Machine.setStack_setStack]
    rfl
  | yank | yankdup =>
    obtain ⟨hei, -, depth, rest, x, xs, hd, hx, hrun⟩ := withDepth_of_meets hn
    rw [body, bind_ok (take_interpreter hei (k := .integer) hd), update_interpreter hk, run, hrun, hx]
    rfl
  | stackdepth =>
    have hi := (stackOk_iff.1 (meets_singleton.1 hn)).1
    rw [body, bind_ok (items_interpreter hk m), give_interpreter hi, run, if_pos hi]
    rfl

end StackOp

section Values

variable [RandomSource ρ]

theorem IntegerOp.body_interpreter (op : IntegerOp) (hk : o.enables .integer = true)
    (hn : (m.interpreter o).Meets op.needs) :
    op.body o (m.interpreter o) = (.ok (), (op.run o m).interpreter o) := by
  cases op with
  | add | sub | mul | max | min =>
    rw [run, binary_eq]
    exact combine_interpreter (meets_singleton.1 hn) hk _
  | div | mod =>
    rw [run, divide_eq]
    exact ifTop_combine_interpreter (meets_singleton.1 hn) hk _ _
  | less | greater =>
    obtain ⟨htwo, hb⟩ := meets_pair.1 hn
    have hb := (stackOk_iff.1 hb).1
    rw [run, compare_eq, hb]
    exact combine_interpreter htwo hb _
  | fromBoolean =>
    rw [run, ofBoolean_eq]
    exact convert_interpreter (meets_singleton.1 hn) hk _
  | fromFloat =>
    rw [run, ofFloat_eq]
    exact ifTop_convert_interpreter (meets_singleton.1 hn) hk _ _
  | rand => exact draw_interpreter (k := .integer) hk m (Draw.between o.minInteger o.maxInteger)

theorem FloatOp.body_interpreter (op : FloatOp) (hk : o.enables .float = true)
    (hn : (m.interpreter o).Meets op.needs) :
    op.body o (m.interpreter o) = (op.run o m).result .fault o := by
  cases op with
  | add | sub | mul | max | min =>
    rw [run, binary_eq]
    exact combine_interpreter (meets_singleton.1 hn) hk _
  | div | mod =>
    rw [run, divide_eq]
    exact ifTop_combine_interpreter (meets_singleton.1 hn) hk _ _
  | less | greater =>
    obtain ⟨htwo, hb⟩ := meets_pair.1 hn
    have hb := (stackOk_iff.1 hb).1
    rw [run, compare_eq, hb]
    exact combine_interpreter htwo hb _
  | sin | cos | tan =>
    rw [run, unary_eq]
    exact ifTop_convert_interpreter (meets_singleton.1 hn) hk _ _
  | fromBoolean =>
    rw [run, ofBoolean_eq]
    exact convert_interpreter (meets_singleton.1 hn) hk _
  | fromInteger =>
    obtain ⟨hi, n, rest, hx⟩ := exists_of_stackOk (meets_singleton.1 hn)
    have hx' : m.integer = n :: rest := hx
    rw [body, bind_ok (take_interpreter hi hx), run, ofInteger, hx']
    dsimp only
    cases Number.floatOfInt? n with
    | none => rfl
    | some x => exact give_interpreter hk _ x
  | rand => exact draw_interpreter (k := .float) hk m (Draw.uniform o.minFloat o.maxFloat)

theorem BooleanOp.body_interpreter (op : BooleanOp) (hk : o.enables .boolean = true)
    (hn : (m.interpreter o).Meets op.needs) :
    op.body (m.interpreter o) = (.ok (), (op.run m).interpreter o) := by
  cases op with
  | and | or =>
    rw [run, binary_eq]
    exact combine_interpreter (meets_singleton.1 hn) hk _
  | not =>
    rw [run, negate_eq]
    exact convert_interpreter (meets_singleton.1 hn) hk _
  | fromFloat =>
    rw [run, ofFloat_eq]
    exact convert_interpreter (meets_singleton.1 hn) hk _
  | fromInteger =>
    rw [run, ofInteger_eq]
    exact convert_interpreter (meets_singleton.1 hn) hk _
  | rand => exact draw_interpreter (k := .boolean) hk m (Draw.chance 0.5)

theorem NameOp.body_interpreter (op : NameOp) (hk : o.enables .name = true) (m : Machine ρ) :
    op.body (m.interpreter o) = (op.run m).result .fault o := by
  cases op with
  | quote => rfl
  | rand =>
    rw [body, run, newName]
    rcases hd : Supply.newName m.supply with ⟨_ | name, supply⟩
    · rw [bind_error (generate_interpreter_error hd)]
      rfl
    · rw [bind_ok (generate_interpreter_ok hd), give_interpreter hk]
      rfl
  | randBoundName =>
    have hread : read (·.bindings.names) (m.interpreter o) = (.ok m.bindings.names, m.interpreter o) := rfl
    rw [body, bind_ok hread, run, boundName]
    cases m.bindings.names with
    | nil => rfl
    | cons name names => exact draw_interpreter (k := .name) hk m (Draw.choose name names)

end Values

/-! ### Programs -/

namespace ExecOp

theorem turn_interpreter {last current : Int} {integers : Stack Int} {t : Tree} {rest : Stack Tree}
    (hk : o.enables .integer = true) (hi : m.integer = last :: current :: integers) (he : m.exec = t :: rest)
    (trees : List Tree) :
    turn current trees (m.interpreter o)
      = (.ok (), { m with integer := current :: integers, exec := trees ++ rest }.interpreter o) := by
  have hex := o.enables_exec
  have hdropped : (m.setStack .integer integers).stack .exec = t :: rest := he
  have hdrop : update .integer (List.drop 2) (m.interpreter o) = (.ok (), (m.setStack .integer integers).interpreter o) := by
    rw [update_interpreter hk, show m.stack .integer = last :: current :: integers from hi]
    rfl
  rw [turn, bind_ok hdrop, bind_ok (take_interpreter hex hdropped), bind_ok (give_interpreter hk _ current),
    update_interpreter hex]
  rfl

theorem bodyCount_interpreter (wrapBody : Tree → Tree) (hn : (m.interpreter o).Meets [(.integer, 1), (.exec, 1)]) :
    bodyCount o wrapBody (m.interpreter o) = (countWith o wrapBody m).result .fault o := by
  obtain ⟨hi, he⟩ := meets_pair.1 hn
  obtain ⟨hk, n, integers, hi⟩ := exists_of_stackOk hi
  obtain ⟨hex, t, rest, he⟩ := exists_of_stackOk he
  have hi' : m.integer = n :: integers := hi
  have he' : m.exec = t :: rest := he
  rw [bodyCount, bind_ok (peek_interpreter hk hi), countWith, hi', he']
  dsimp only
  by_cases hpos : n < 1
  · rw [if_pos hpos, if_pos hpos]
    rfl
  · rw [if_neg hpos, if_neg hpos, bind_ok (peek_interpreter hex he)]
    cases hl : buildLoop 0 (n - 1) (wrapBody t) with
    | error f => rw [bind_error (ofExcept_error rfl _)]; rfl
    | ok loop =>
      rw [bind_ok (ofExcept_ok rfl _)]
      dsimp only
      by_cases hf : o.fits loop = true
      · have hpopped : (m.setStack .integer integers).stack .exec = t :: rest := he
        rw [if_pos hf, if_pos hf, bind_ok (take_interpreter hk hi), bind_ok (take_interpreter hex hpopped),
          give_interpreter hex]
        rfl
      · rw [if_neg hf, if_neg hf]
        rfl

theorem body_interpreter (op : ExecOp) (hn : (m.interpreter o).Meets op.needs) :
    op.body o (m.interpreter o) = (op.run o m).result .fault o := by
  have hex := o.enables_exec
  cases op with
  | choose =>
    obtain ⟨hb, he⟩ := meets_pair.1 hn
    obtain ⟨hk, c, booleans, hb⟩ := exists_of_stackOk hb
    obtain ⟨-, x, y, rest, he⟩ := exists_of_stackOk_two he
    have hb' : m.boolean = c :: booleans := hb
    have he' : m.exec = x :: y :: rest := he
    have h₁ : (m.setStack .boolean booleans).stack .exec = x :: y :: rest := he
    have h₂ : ((m.setStack .boolean booleans).setStack .exec (y :: rest)).stack .exec = y :: rest := rfl
    rw [body, bind_ok (take_interpreter hk hb), bind_ok (take_interpreter hex h₁), bind_ok (take_interpreter hex h₂),
      give_interpreter hex, run, choice, hb', he']
    rfl
  | k =>
    obtain ⟨-, x, y, rest, he⟩ := exists_of_stackOk_two (meets_singleton.1 hn)
    have he' : m.exec = x :: y :: rest := he
    have h₁ : (m.setStack .exec (y :: rest)).stack .exec = y :: rest := rfl
    rw [body, bind_ok (take_interpreter hex he), bind_ok (take_interpreter hex h₁), give_interpreter hex, run, constant,
      he']
    rfl
  | s =>
    obtain ⟨-, hl⟩ := stackOk_iff.1 (meets_singleton.1 hn)
    obtain ⟨a, b, c, rest, he⟩ : ∃ a b c rest, m.stack .exec = a :: b :: c :: rest := by
      revert hl
      rcases m.stack .exec with _ | ⟨a, _ | ⟨b, _ | ⟨c, rest⟩⟩⟩ <;> simp
    have he' : m.exec = a :: b :: c :: rest := he
    rw [body, bind_ok (pick_interpreter hex (by rw [he]; rfl)), bind_ok (pick_interpreter hex (by rw [he]; rfl)),
      bind_ok (pick_interpreter hex (by rw [he]; rfl)), run, distribute, he']
    dsimp only
    by_cases hf : o.fits (.list [b, c]) = true
    · rw [if_pos hf, if_pos hf, bind_ok (update_interpreter hex m _), update_interpreter hex, he]
      rfl
    · rw [if_neg hf, if_neg hf]
      rfl
  | y =>
    obtain ⟨-, t, rest, he⟩ := exists_of_stackOk (meets_singleton.1 hn)
    have he' : m.exec = t :: rest := he
    rw [body, bind_ok (peek_interpreter hex he), run, recur, he']
    dsimp only
    by_cases hf : o.fits (.list [recurToken, t]) = true
    · rw [if_pos hf, if_pos hf, bind_ok (take_interpreter hex he), update_interpreter hex]
      rfl
    · rw [if_neg hf, if_neg hf]
      rfl
  | doRange =>
    obtain ⟨hi, he⟩ := meets_pair.1 hn
    obtain ⟨hk, last, current, integers, hi⟩ := exists_of_stackOk_two hi
    obtain ⟨-, t, rest, he⟩ := exists_of_stackOk he
    have hi' : m.integer = last :: current :: integers := hi
    have he' : m.exec = t :: rest := he
    rw [body, bind_ok (pick_interpreter hk (by rw [hi]; rfl)), bind_ok (pick_interpreter hk (by rw [hi]; rfl)),
      bind_ok (peek_interpreter hex he), run, range, hi', he']
    dsimp only
    by_cases hc : current = last
    · rw [if_pos hc, if_pos hc, turn_interpreter hk hi' he']
      rfl
    · rw [if_neg hc, if_neg hc]
      cases hl : buildLoop (if current < last then current + 1 else current - 1) last t with
      | error f => rw [bind_error (ofExcept_error rfl _)]; rfl
      | ok loop =>
        rw [bind_ok (ofExcept_ok rfl _)]
        dsimp only
        by_cases hf : o.fits loop = true
        · rw [if_pos hf, if_pos hf, turn_interpreter hk hi' he']
          rfl
        · rw [if_neg hf, if_neg hf]
          rfl
  | doCount | doTimes => exact bodyCount_interpreter _ hn

end ExecOp

/-! ### Code -/

namespace CodeOp

theorem bodyBinary_interpreter (f : Tree → Tree → Tree) (h : (m.interpreter o).stackOk .code (2 : Nat) = true) :
    bodyBinary o f (m.interpreter o) = (.ok (), (binary o f m).interpreter o) := by
  obtain ⟨hk, top, second, rest, hc⟩ := exists_of_stackOk_two h
  rw [bodyBinary, bind_ok (pick_interpreter hk (by rw [hc]; rfl)), bind_ok (pick_interpreter hk (by rw [hc]; rfl)),
    binary_eq]
  by_cases hf : o.fits (f second top) = true
  · rw [if_pos hf, combine_interpreter h hk, Machine.merge_of_ready (k := .code) f hc rfl,
      Machine.merge_of_ready (k := .code) f hc hf]
  · have hnot : ¬ m.MergeReady .code fun second top => o.fits (f second top) := fun ⟨b, a, xs, hx, hacc⟩ => by
      rw [hc] at hx
      cases hx
      exact hf hacc
    rw [if_neg hf, Machine.merge_of_not_ready (k := .code) f hnot]
    rfl

theorem bodyOfStack_interpreter {k : Kind} (hk : o.enables .code = true) (h : (m.interpreter o).stackOk k (1 : Nat) = true) :
    bodyOfStack k (m.interpreter o) = (ofStack k m).result .fault o := by
  obtain ⟨he, x, xs, hx⟩ := exists_of_stackOk h
  rw [bodyOfStack, bind_ok (take_interpreter he hx), ofStack, hx]
  dsimp only
  cases Tree.ofItem k x with
  | error f => rw [bind_error (ofExcept_error rfl _)]; rfl
  | ok t =>
    rw [bind_ok (ofExcept_ok rfl _), give_interpreter hk]
    rfl

variable [RandomSource ρ]

theorem body_interpreter (op : CodeOp) (hk : o.enables .code = true) (hn : (m.interpreter o).Meets op.needs) :
    op.body o (m.interpreter o) = (op.run o m).result .fault o := by
  have hex := o.enables_exec
  cases op with
  | append | cons | list => exact bodyBinary_interpreter _ (meets_singleton.1 hn)
  | car | cdr =>
    rw [run, unary_eq]
    exact convert_interpreter (meets_singleton.1 hn) hk _
  | atom | null =>
    obtain ⟨hone, hb⟩ := meets_pair.1 hn
    have hb := (stackOk_iff.1 hb).1
    rw [run, test_eq, hb]
    exact convert_interpreter hone hb _
  | member =>
    obtain ⟨htwo, hb⟩ := meets_pair.1 hn
    have hb := (stackOk_iff.1 hb).1
    rw [run, testMember_eq, hb]
    exact combine_interpreter htwo hb _
  | length | size =>
    obtain ⟨hone, hi⟩ := meets_pair.1 hn
    have hi := (stackOk_iff.1 hi).1
    rw [run, measure_eq, hi]
    exact convert_interpreter hone hi _
  | nth =>
    obtain ⟨hi, hc⟩ := meets_pair.1 hn
    obtain ⟨hei, n, integers, hi⟩ := exists_of_stackOk hi
    obtain ⟨-, top, rest, hc⟩ := exists_of_stackOk hc
    have hi' : m.integer = n :: integers := hi
    have hc' : m.code = top :: rest := hc
    have h₁ : (m.setStack .integer integers).stack .code = top :: rest := hc
    rw [body, bind_ok (take_interpreter hei hi), convert, bind_ok (take_interpreter hk h₁), give_interpreter hk, run,
      pickItem, hi', hc']
    rfl
  | definition =>
    obtain ⟨hen, name, names, hx⟩ := exists_of_stackOk (meets_singleton.1 hn)
    have hx' : m.name = name :: names := hx
    have hread : read (·.bindings.lookup name) (m.interpreter o) = (.ok (m.bindings.lookup name), m.interpreter o) := rfl
    rw [body, bind_ok (peek_interpreter hen hx), bind_ok hread, run, pushDefinition, hx']
    dsimp only
    cases m.bindings.lookup name with
    | none => rfl
    | some t =>
      dsimp only
      rw [bind_ok (take_interpreter hen hx), give_interpreter hk]
      rfl
  | doKeep =>
    obtain ⟨-, top, rest, hc⟩ := exists_of_stackOk (meets_singleton.1 hn)
    have hc' : m.code = top :: rest := hc
    have h₁ : (m.setStack .exec (popToken :: m.stack .exec)).stack .code = top :: rest := hc
    have hrun : executeTop m = { m with exec := top :: popToken :: m.exec } := by simp only [executeTop, hc']
    rw [body, bind_ok (give_interpreter hex m _), bind_ok (peek_interpreter hk h₁), give_interpreter hex, run, hrun]
    rfl
  | doPop =>
    rw [run, executePopped_eq]
    exact convert_interpreter (meets_singleton.1 hn) hex _
  | choose =>
    obtain ⟨hb, hc⟩ := meets_pair.1 hn
    obtain ⟨heb, c, booleans, hb⟩ := exists_of_stackOk hb
    obtain ⟨-, top, second, rest, hcode⟩ := exists_of_stackOk_two hc
    have hb' : m.boolean = c :: booleans := hb
    have hc' : m.code = top :: second :: rest := hcode
    have h₁ : (m.setStack .boolean booleans).stack .code = top :: second :: rest := hcode
    have h₂ : ((m.setStack .boolean booleans).setStack .code (second :: rest)).stack .code = second :: rest := rfl
    rw [body, bind_ok (take_interpreter heb hb), combine, bind_ok (take_interpreter hk h₁), bind_ok (take_interpreter hk h₂),
      give_interpreter hex, run, choice, hb', hc']
    rfl
  | quote =>
    rw [run, quoteNext_eq]
    exact ifTop_convert_interpreter (meets_singleton.1 hn) hk _ _
  | noop => rfl
  | fromBoolean | fromFloat | fromInteger | fromName => exact bodyOfStack_interpreter hk (meets_singleton.1 hn)
  | rand =>
    obtain ⟨hei, n, integers, hi⟩ := exists_of_stackOk (meets_singleton.1 hn)
    have hi' : m.integer = n :: integers := hi
    rw [body, bind_ok (peek_interpreter hei hi), run, random, hi']
    dsimp only
    by_cases hl : randomLimit o n < 1
    · rw [if_pos hl, if_pos hl]
      rfl
    · rw [if_neg hl, if_neg hl, bind_ok (take_interpreter hei hi)]
      rcases hg : RandomCode.upTo o (randomLimit o n) m.supply with ⟨_ | t, supply⟩
      · have hg' : RandomCode.upTo o (randomLimit o n) (m.setStack .integer integers).supply = _ := hg
        rw [bind_error (generate_interpreter_error hg')]
        rfl
      · have hg' : RandomCode.upTo o (randomLimit o n) (m.setStack .integer integers).supply = _ := hg
        rw [bind_ok (generate_interpreter_ok hg'), give_interpreter hk]
        rfl

end CodeOp

namespace Instruction

variable [RandomSource ρ] {i : Instruction}

/-- **Once it has asked, an instruction does to an interpreter what it does to the machine.** -/
theorem body_interpreter (hi : i ∈ all) (ha : o.allows i = true) (hn : (m.interpreter o).Meets i.needs) :
    i.body o (m.interpreter o) = (i.run o m).result .fault o := by
  have hk : o.enables i.kind = true := (Bool.and_eq_true_iff.1 ha).1
  cases i with
  | stack k op => exact op.body_interpreter hk (fun hd => ne_name_of_define (hd ▸ hi)) hn
  | integer op => exact op.body_interpreter hk hn
  | float op   => exact op.body_interpreter hk hn
  | boolean op => exact op.body_interpreter hk hn
  | name op    => exact op.body_interpreter hk m
  | exec op    => exact op.body_interpreter hn
  | code op    => exact op.body_interpreter hk hn

/-- **What an allowed instruction does to an interpreter.** -/
theorem act_interpreter (hm : m.Vacant o) (hi : i ∈ all) (ha : o.allows i = true) :
    i.act o (m.interpreter o) = (i.run o m).result .fault o := by
  by_cases hn : (m.interpreter o).Meets i.needs
  · rw [act, guarded_of_meets hn, body_interpreter hi ha hn]
  · rw [act, guarded_of_not_meets hn, run_of_not_meets hm hn]
    rfl

end Instruction
end Bodies
end PushMachine
