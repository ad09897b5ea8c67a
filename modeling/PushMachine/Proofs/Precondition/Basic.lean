import PushMachine.Proofs.Form
import PushMachine.Proofs.Stack
/-!
# Preconditions

Every instruction has a precondition: so many items on the stacks it takes from, the stacks it gives to enabled, a
divisor that is not zero, a result that fits.  `Instruction.Ready` lists them for all instructions, in terms of the
stacks alone.  For the manipulations that every stack has, this module shows that one that is not ready leaves the
whole machine as it is, and that one that is ready does not, unless it can put back what it takes.
-/
namespace PushMachine

variable {ρ : Type}

/-! ## Preconditions -/

/-- When a manipulation of the stack `k` can act.  A depth is taken from INTEGER first, so on INTEGER itself it is one
item more. -/
def StackOp.Ready (o : Options) (k : Kind) (m : Machine ρ) : StackOp → Prop
  | .dup | .pop               => 1 ≤ (m.stack k).length
  | .swap                     => 2 ≤ (m.stack k).length
  | .rot                      => 3 ≤ (m.stack k).length
  | .flush                    => True
  | .equal                    => 2 ≤ (m.stack k).length ∧ o.enables .boolean = true
  | .stackdepth               => o.enables .integer = true
  | .shove | .yank | .yankdup =>
    1 ≤ m.integer.length ∧ (if k = .integer then 2 else 1) ≤ (m.stack k).length
  | .define                   => 1 ≤ m.name.length ∧ 1 ≤ (m.stack k).length

def IntegerOp.Ready (o : Options) (m : Machine ρ) : IntegerOp → Prop
  | .add | .sub | .mul | .max | .min => 2 ≤ m.integer.length
  | .div | .mod                      => 2 ≤ m.integer.length ∧ ∃ n ∈ m.integer.head?, n ≠ 0
  | .less | .greater                 => 2 ≤ m.integer.length ∧ o.enables .boolean = true
  | .fromBoolean                     => 1 ≤ m.boolean.length
  | .fromFloat                       => ∃ x ∈ m.float.head?, Number.isFinite x = true
  | .rand                            => True

def FloatOp.Ready (o : Options) (m : Machine ρ) : FloatOp → Prop
  | .add | .sub | .mul | .max | .min => 2 ≤ m.float.length
  | .div | .mod                      => 2 ≤ m.float.length ∧ ∃ x ∈ m.float.head?, (x == 0.0) = false
  | .less | .greater                 => 2 ≤ m.float.length ∧ o.enables .boolean = true
  | .sin | .cos | .tan               => ∃ x ∈ m.float.head?, Number.isFinite x = true
  | .fromBoolean                     => 1 ≤ m.boolean.length
  | .fromInteger                     => 1 ≤ m.integer.length
  | .rand                            => True

def BooleanOp.Ready (m : Machine ρ) : BooleanOp → Prop
  | .and | .or    => 2 ≤ m.boolean.length
  | .not          => 1 ≤ m.boolean.length
  | .fromFloat    => 1 ≤ m.float.length
  | .fromInteger  => 1 ≤ m.integer.length
  | .rand         => True

def NameOp.Ready (m : Machine ρ) : NameOp → Prop
  | .quote | .rand  => True
  | .randBoundName  => 1 ≤ m.bindings.size

/-- The integer after `current` on the way to `last`. -/
def ExecOp.nearer (current last : Int) : Int := if current < last then current + 1 else current - 1

/-- The rest of a loop fits, if it can be built; that it cannot be is found out before its size. -/
def ExecOp.LoopFits (o : Options) (current last : Int) (body : Tree) : Prop :=
  ∀ loop, buildLoop current last body = .ok loop → o.fits loop = true

/-- When a counted loop over the indices below the top integer can be built around the next item. -/
def ExecOp.CountReady (o : Options) (wrapBody : Tree → Tree) (m : Machine ρ) : Prop :=
  ∃ n ∈ m.integer.head?, ∃ body ∈ m.exec.head?, 1 ≤ n ∧ LoopFits o 0 (n - 1) (wrapBody body)

def ExecOp.Ready (o : Options) (m : Machine ρ) : ExecOp → Prop
  | .choose  => 1 ≤ m.boolean.length ∧ 2 ≤ m.exec.length
  | .k       => 2 ≤ m.exec.length
  | .s       => ∃ a b c rest, m.exec = a :: b :: c :: rest ∧ o.fits (.list [b, c]) = true
  | .y       => ∃ a ∈ m.exec.head?, o.fits (.list [recurToken, a]) = true
  | .doRange => ∃ last current integers, m.integer = last :: current :: integers ∧
    ∃ body ∈ m.exec.head?, current = last ∨ LoopFits o (nearer current last) last body
  | .doCount => CountReady o id m
  | .doTimes => CountReady o withoutIndex m

/-- When the two top trees can be replaced by the tree that `f` makes of the second and the top one. -/
def CodeOp.BinaryReady (o : Options) (f : Tree → Tree → Tree) (m : Machine ρ) : Prop :=
  ∃ top second rest, m.code = top :: second :: rest ∧ o.fits (f second top) = true

def CodeOp.Ready (o : Options) (m : Machine ρ) : CodeOp → Prop
  | .append         => BinaryReady o (fun second top => .list (top.items ++ second.items)) m
  | .cons           => BinaryReady o (fun second top => .list (second :: top.items)) m
  | .list           => BinaryReady o (fun second top => .list [second, top]) m
  | .car | .cdr     => 1 ≤ m.code.length
  | .atom | .null   => 1 ≤ m.code.length ∧ o.enables .boolean = true
  | .member         => 2 ≤ m.code.length ∧ o.enables .boolean = true
  | .length | .size => 1 ≤ m.code.length ∧ o.enables .integer = true
  | .nth            => 1 ≤ m.integer.length ∧ 1 ≤ m.code.length
  | .definition     => ∃ name ∈ m.name.head?, m.bindings.contains name = true
  | .doKeep | .doPop => 1 ≤ m.code.length
  | .choose         => 1 ≤ m.boolean.length ∧ 2 ≤ m.code.length
  | .quote          => ∃ t ∈ m.exec.head?, o.fits t = true
  | .noop           => True
  | .fromBoolean    => 1 ≤ m.boolean.length
  | .fromFloat      => 1 ≤ m.float.length
  | .fromInteger    => 1 ≤ m.integer.length
  | .fromName       => 1 ≤ m.name.length
  | .rand           => ∃ n ∈ m.integer.head?, 1 ≤ randomLimit o n

/-- **When an instruction can act.** -/
def Instruction.Ready (o : Options) (m : Machine ρ) : Instruction → Prop
  | .stack k op => op.Ready o k m
  | .integer op => op.Ready o m
  | .float op   => op.Ready o m
  | .boolean op => op.Ready m
  | .name op    => op.Ready m
  | .exec op    => op.Ready o m
  | .code op    => op.Ready o m

/-- The instructions that may give back exactly what they took. -/
def Instruction.mayIdle : Instruction → Bool
  | .stack _ .swap | .stack _ .rot | .stack _ .flush | .stack .integer .yankdup => true
  | .float .sin | .float .cos | .float .tan | .name .quote                      => true
  | .code .car | .code .cdr | .code .noop                                       => true
  | _                                                                           => false

/-! ## The forms

A form that is ready changes the depth of some stack, unless it takes one item and puts one on the same stack. -/

namespace Machine

theorem ne_of_depth {m m' : Machine ρ} (k : Kind) (h : (m'.stack k).length ≠ (m.stack k).length) : m' ≠ m :=
  fun he => h (by rw [he])

theorem next_inj_iff {ε : Type} {m m' : Machine ρ} : (.next m' : Outcome ε ρ) = .next m ↔ m' = m :=
  ⟨Outcome.next.inj, congrArg Outcome.next⟩

theorem next_ne_of_depth {ε : Type} {m m' : Machine ρ} (k : Kind) (h : (m'.stack k).length ≠ (m.stack k).length) :
    (.next m' : Outcome ε ρ) ≠ .next m :=
  fun he => ne_of_depth k h (Outcome.next.inj he)

variable {j k : Kind}

theorem depth_pushDrawn (m : Machine ρ) (x : k.Item) (supply : Supply ρ) :
    ((m.pushDrawn k x supply).stack k).length ≠ (m.stack k).length := by
  have hs : (m.pushDrawn k x supply).stack k = x :: m.stack k := m.stack_setStack_self k (x :: m.stack k)
  rw [hs, List.length_cons]
  omega

theorem moveReady_const_iff (m : Machine ρ) (b : Bool) :
    m.MoveReady j (fun _ => b) ↔ 1 ≤ (m.stack j).length ∧ b = true := by
  unfold MoveReady
  rcases m.stack j with _ | ⟨x, rest⟩ <;> simp

theorem mergeReady_const_iff (m : Machine ρ) (b : Bool) :
    m.MergeReady j (fun _ _ => b) ↔ 2 ≤ (m.stack j).length ∧ b = true := by
  unfold MergeReady
  rcases m.stack j with _ | ⟨b, _ | ⟨a, rest⟩⟩ <;> simp

theorem mergeReady_top_iff (m : Machine ρ) (accepts : j.Item → Bool) :
    m.MergeReady j (fun _ b => accepts b) ↔ 2 ≤ (m.stack j).length ∧ ∃ b ∈ (m.stack j).head?, accepts b = true := by
  unfold MergeReady
  rcases m.stack j with _ | ⟨b, _ | ⟨a, rest⟩⟩ <;> simp

/-- Merging leaves one item less, wherever the result goes. -/
theorem merge_eq_self_iff (m : Machine ρ) (accepts : j.Item → j.Item → Bool) (f : j.Item → j.Item → k.Item) :
    m.merge j k accepts f = m ↔ ¬ m.MergeReady j accepts := by
  refine ⟨?_, merge_of_not_ready f⟩
  rintro he ⟨b, a, rest, hs, hab⟩
  rw [merge_of_ready f hs hab] at he
  refine ne_of_depth j ?_ he
  rw [hs]
  by_cases hk : j = k
  · subst hk
    simp
  · rw [stack_setStack_of_ne _ hk, stack_setStack_self, List.length_cons, List.length_cons]
    omega

theorem move_eq_self_iff (hk : j ≠ k) (m : Machine ρ) (accepts : j.Item → Bool) (f : j.Item → k.Item) :
    m.move j k accepts f = m ↔ ¬ m.MoveReady j accepts := by
  refine ⟨?_, move_of_not_ready f⟩
  rintro he ⟨x, hx, ha⟩
  obtain ⟨rest, hs⟩ := List.head?_eq_some_iff.1 (Option.mem_def.1 hx)
  rw [move_of_ready f hs ha] at he
  refine ne_of_depth j ?_ he
  rw [hs, stack_setStack_of_ne _ hk, stack_setStack_self, List.length_cons]
  omega

end Machine

/-! ## Stack manipulations -/

namespace StackOp

theorem equalTop_eq_self_iff (o : Options) (k : Kind) (m : Machine ρ) :
    equalTop o k m = m ↔ ¬ (2 ≤ (m.stack k).length ∧ o.enables .boolean = true) := by
  rw [equalTop_eq, Machine.merge_eq_self_iff, Machine.mergeReady_const_iff]

theorem length_stack_popped {j : Kind} (k : Kind) {m : Machine ρ} {x : j.Item} {rest : Stack j.Item}
    (h : m.stack j = x :: rest) :
    (m.stack k).length = ((m.setStack j rest).stack k).length + (if k = j then 1 else 0) := by
  by_cases hk : k = j
  · subst hk
    rw [m.stack_setStack_self, h, if_pos rfl, List.length_cons]
  · rw [m.stack_setStack_of_ne hk, if_neg hk, Nat.add_zero]

/-- Acting with a depth leaves the machine alone if the depth or the item is missing. -/
theorem withDepth_of_not_ready {k : Kind} (act : Int → Stack k.Item → Stack k.Item) {m : Machine ρ}
    (h : ¬ (1 ≤ m.integer.length ∧ (if k = .integer then 2 else 1) ≤ (m.stack k).length)) : withDepth k act m = m := by
  unfold withDepth
  split
  · rfl
  · rename_i depth rest hi
    dsimp only
    split
    · rfl
    · rename_i hne
      have hlen := length_stack_popped (j := .integer) k hi
      have hpos : 0 < ((m.setStack .integer rest).stack k).length := List.length_pos_of_ne_nil hne
      refine absurd ⟨by rw [hi, List.length_cons]; omega, ?_⟩ h
      by_cases hk : k = .integer
      · rw [if_pos hk] at hlen ⊢; omega
      · rw [if_neg hk] at hlen ⊢; omega

/-- And otherwise it does not, for an action that never makes up for the depth on INTEGER itself. -/
theorem withDepth_ne_self {k : Kind} {act : Int → Stack k.Item → Stack k.Item} {m : Machine ρ}
    (hact : k = .integer → ∀ d xs, (act d xs).length = xs.length)
    (h : 1 ≤ m.integer.length ∧ (if k = .integer then 2 else 1) ≤ (m.stack k).length) : withDepth k act m ≠ m := by
  obtain ⟨depth, rest, hi⟩ := List.exists_cons_of_length_pos h.1
  have hlen := length_stack_popped (j := .integer) k hi
  have hpos : 0 < ((m.setStack .integer rest).stack k).length := by
    have := h.2
    by_cases hk : k = .integer
    · rw [if_pos hk] at hlen this; omega
    · rw [if_neg hk] at hlen this; omega
  obtain ⟨x, xs, hx⟩ := List.exists_cons_of_length_pos hpos
  have hx' : ({ m with integer := rest } : Machine ρ).stack k = x :: xs := hx
  have hrun : withDepth k act m = (m.setStack .integer rest).setStack k (act depth (x :: xs)) := by
    unfold withDepth
    rw [hi]
    dsimp only
    rw [hx']
    rfl
  rw [hrun]
  refine Machine.ne_of_depth .integer ?_
  have hi' : (m.stack .integer).length = rest.length + 1 := congrArg List.length hi
  by_cases hk : k = .integer
  · subst hk
    rw [Machine.stack_setStack_self, hact rfl, ← hx, m.stack_setStack_self]
    omega
  · rw [Machine.stack_setStack_of_ne _ (Ne.symm hk), m.stack_setStack_self]
    omega

theorem defineTop_of_not_ready {k : Kind} {m : Machine ρ}
    (h : ¬ (1 ≤ m.name.length ∧ 1 ≤ (m.stack k).length)) : defineTop k m = .next m := by
  unfold defineTop
  split
  · rfl
  · rename_i key names hn
    dsimp only
    split
    · rfl
    · rename_i x xs hx
      have hlen := length_stack_popped (j := .name) k hn
      have hpos : 0 < ((m.setStack .name names).stack k).length := by
        rw [show (m.setStack .name names).stack k = x :: xs from hx, List.length_cons]
        omega
      exact absurd ⟨by rw [hn, List.length_cons]; omega, by omega⟩ h

/-- A `define` that is ready takes a name, whether the item has code or not. -/
theorem defineTop_ne_self {k : Kind} {m : Machine ρ} (hk : k ≠ .name)
    (h : 1 ≤ m.name.length ∧ 1 ≤ (m.stack k).length) : defineTop k m ≠ .next m := by
  obtain ⟨key, names, hn⟩ := List.exists_cons_of_length_pos h.1
  obtain ⟨x, xs, hx⟩ := List.exists_cons_of_length_pos h.2
  have hx' : ({ m with name := names }).stack k = x :: xs := (m.stack_setStack_of_ne hk names).trans hx
  unfold defineTop
  rw [hn]
  dsimp only
  rw [hx']
  dsimp only
  split
  · intro he
    refine Machine.ne_of_depth .name ?_ (Outcome.next.inj he)
    show (((m.setStack .name names).setStack k xs).stack .name).length ≠ m.name.length
    rw [Machine.stack_setStack_of_ne _ (Ne.symm hk), m.stack_setStack_self, hn, List.length_cons]
    omega
  · exact fun he => by cases he

theorem run_of_not_ready (o : Options) (k : Kind) (m : Machine ρ) (op : StackOp) (h : ¬ op.Ready o k m) :
    op.run o k m = .next m := by
  -- a manipulation of one stack alone has to give that stack back
  have hset : ∀ {f : Stack k.Item → Stack k.Item}, f (m.stack k) = m.stack k →
      Outcome.next (m.setStack k (f (m.stack k))) = (.next m : Outcome Fault ρ) := fun hf => by
    rw [hf, m.setStack_stack]
  cases op with
  | dup =>
    refine hset (f := Stack.dup) ?_
    rcases hs : m.stack k with _ | ⟨x, xs⟩
    · rfl
    · exact absurd (by rw [Ready, hs]; simp) h
  | pop =>
    refine hset (f := List.tail) ?_
    rcases hs : m.stack k with _ | ⟨x, xs⟩
    · rfl
    · exact absurd (by rw [Ready, hs]; simp) h
  | swap =>
    refine hset (f := Stack.swap) ?_
    rcases hs : m.stack k with _ | ⟨x, _ | ⟨y, xs⟩⟩
    · rfl
    · rfl
    · exact absurd (by rw [Ready, hs]; simp) h
  | rot =>
    refine hset (f := Stack.rot) ?_
    rcases hs : m.stack k with _ | ⟨x, _ | ⟨y, _ | ⟨z, xs⟩⟩⟩
    · rfl
    · rfl
    · rfl
    · exact absurd (by rw [Ready, hs]; simp) h
  | flush => exact absurd trivial h
  | equal => exact congrArg Outcome.next ((equalTop_eq_self_iff o k m).2 h)
  | stackdepth => exact congrArg Outcome.next (if_neg h)
  | shove | yank | yankdup => exact congrArg Outcome.next (withDepth_of_not_ready _ h)
  | define => exact defineTop_of_not_ready h

/-- A manipulation that is ready changes the machine, unless it only rearranges or may give back the depth. -/
theorem run_ne_self (o : Options) {k : Kind} (m : Machine ρ) {op : StackOp}
    (hi : (Instruction.stack k op).mayIdle = false) (hd : op = .define → k ≠ .name) (h : op.Ready o k m) :
    op.run o k m ≠ .next m := by
  intro he
  cases op with
  | dup =>
    obtain ⟨x, xs, hx⟩ := List.exists_cons_of_length_pos h
    have := (m.setStack_eq_self_iff k _).1 (Outcome.next.inj he)
    rw [hx] at this
    exact absurd (congrArg List.length this) (by simp [Stack.dup])
  | pop =>
    obtain ⟨x, xs, hx⟩ := List.exists_cons_of_length_pos h
    have := (m.setStack_eq_self_iff k _).1 (Outcome.next.inj he)
    rw [hx] at this
    exact absurd (congrArg List.length this) (by simp)
  | swap | rot | flush => exact absurd hi (by simp [Instruction.mayIdle])
  | equal => exact (equalTop_eq_self_iff o k m).1 (Outcome.next.inj he) h
  | stackdepth =>
    have := (if_pos h).symm.trans (Outcome.next.inj he)
    exact Machine.ne_of_depth .integer (by simp [Machine.stack, Stacks.get]) this
  | shove =>
    exact withDepth_ne_self (fun _ d xs => (Stack.shoveTop_perm d xs).length_eq) h (Outcome.next.inj he)
  | yank => exact withDepth_ne_self (fun _ d xs => (Stack.yank_perm d xs).length_eq) h (Outcome.next.inj he)
  | yankdup =>
    refine withDepth_ne_self (fun hk => ?_) h (Outcome.next.inj he)
    subst hk
    exact absurd hi (by simp [Instruction.mayIdle])
  | define => exact defineTop_ne_self (hd rfl) h he

end StackOp

end PushMachine
