import PushMachine.Machine.Execute
/-!
# The forms of instructions

Most instructions have one of three forms: they take the top item of a stack, or its two top items, and put what they
make of it on a stack, or they put an item there that they draw.  `Machine.move`, `Machine.merge` and
`Machine.pushDrawn` are these forms for all stacks at once, and the equations below say which instruction is which.
What holds of a form holds of all its instructions.
-/
namespace PushMachine

variable {ρ : Type}

/-! ## Stacks by kind -/

theorem Stacks.eq_of_get {s s' : Stacks} (h : ∀ k, s.get k = s'.get k) : s = s' := by
  obtain ⟨_, _, _, _, _, _⟩ := s'
  obtain ⟨_, _, _, _, _, _⟩ := s
  congr
  · exact h .integer
  · exact h .float
  · exact h .boolean
  · exact h .name
  · exact h .exec
  · exact h .code

namespace Machine

theorem setStack_stack (m : Machine ρ) (k : Kind) : m.setStack k (m.stack k) = m := by cases k <;> rfl

@[simp] theorem stack_setStack_self (m : Machine ρ) (k : Kind) (xs : Stack k.Item) : (m.setStack k xs).stack k = xs :=
  Stacks.get_set_self m.toStacks k xs

theorem stack_setStack_of_ne (m : Machine ρ) {j k : Kind} (h : j ≠ k) (xs : Stack k.Item) :
    (m.setStack k xs).stack j = m.stack j :=
  Stacks.get_set_of_ne m.toStacks h xs

theorem setStack_setStack (m : Machine ρ) (k : Kind) (xs ys : Stack k.Item) :
    (m.setStack k xs).setStack k ys = m.setStack k ys := by
  cases k <;> rfl

theorem setStack_eq_self_iff (m : Machine ρ) (k : Kind) (xs : Stack k.Item) :
    m.setStack k xs = m ↔ xs = m.stack k := by
  refine ⟨fun h => ?_, fun h => by rw [h, m.setStack_stack]⟩
  rw [← h, m.stack_setStack_self]

/-! ## The forms -/

/-- Take the top item of `j`, if it is accepted, and put what it becomes on `k`. -/
def move (j k : Kind) (accepts : j.Item → Bool) (f : j.Item → k.Item) (m : Machine ρ) : Machine ρ :=
  match m.stack j with
  | x :: rest => if accepts x then (m.setStack j rest).setStack k (f x :: (m.setStack j rest).stack k) else m
  | []        => m

/-- Take the second and the top item of `j`, if they are accepted, and put what they become on `k`. -/
def merge (j k : Kind) (accepts : j.Item → j.Item → Bool) (f : j.Item → j.Item → k.Item) (m : Machine ρ) : Machine ρ :=
  match m.stack j with
  | b :: a :: rest => if accepts a b then (m.setStack j rest).setStack k (f a b :: (m.setStack j rest).stack k) else m
  | _              => m

/-- Put an item that was drawn on `k`, and keep the supply that the draw left. -/
def pushDrawn (k : Kind) (x : k.Item) (supply : Supply ρ) (m : Machine ρ) : Machine ρ :=
  { m.setStack k (x :: m.stack k) with supply := supply }

/-- There is a top item and it is accepted. -/
def MoveReady (j : Kind) (accepts : j.Item → Bool) (m : Machine ρ) : Prop := ∃ x ∈ (m.stack j).head?, accepts x = true

/-- There are two top items and they are accepted. -/
def MergeReady (j : Kind) (accepts : j.Item → j.Item → Bool) (m : Machine ρ) : Prop :=
  ∃ b a rest, m.stack j = b :: a :: rest ∧ accepts a b = true

section Forms

variable {j k : Kind} {m : Machine ρ}

theorem move_of_ready {accepts : j.Item → Bool} (f : j.Item → k.Item) {x : j.Item} {rest : Stack j.Item}
    (h : m.stack j = x :: rest) (hx : accepts x = true) :
    m.move j k accepts f = (m.setStack j rest).setStack k (f x :: (m.setStack j rest).stack k) := by
  unfold move
  rw [h]
  exact if_pos hx

theorem move_of_not_ready {accepts : j.Item → Bool} (f : j.Item → k.Item) (h : ¬ m.MoveReady j accepts) :
    m.move j k accepts f = m := by
  unfold move
  split
  · rename_i x rest hx
    exact if_neg fun ha => h ⟨x, by rw [hx]; rfl, ha⟩
  · rfl

theorem merge_of_ready {accepts : j.Item → j.Item → Bool} (f : j.Item → j.Item → k.Item) {a b : j.Item}
    {rest : Stack j.Item} (h : m.stack j = b :: a :: rest) (hab : accepts a b = true) :
    m.merge j k accepts f = (m.setStack j rest).setStack k (f a b :: (m.setStack j rest).stack k) := by
  unfold merge
  rw [h]
  exact if_pos hab

theorem merge_of_not_ready {accepts : j.Item → j.Item → Bool} (f : j.Item → j.Item → k.Item)
    (h : ¬ m.MergeReady j accepts) : m.merge j k accepts f = m := by
  unfold merge
  split
  · rename_i b a rest hab
    exact if_neg fun ha => h ⟨b, a, rest, hab, ha⟩
  · rfl

end Forms

end Machine

/-! ## Which instruction has which form -/

theorem StackOp.equalTop_eq (o : Options) (k : Kind) (m : Machine ρ) :
    equalTop o k m = m.merge k .boolean (fun _ _ => o.enables .boolean) k.same := rfl

theorem IntegerOp.binary_eq (f : Int → Int → Int) (m : Machine ρ) :
    binary f m = m.merge .integer .integer (fun _ _ => true) f := by
  obtain ⟨⟨xs, _, _, _, _, _⟩, _, _, _, _⟩ := m
  rcases xs with _ | ⟨b, _ | ⟨a, rest⟩⟩ <;> rfl

theorem IntegerOp.divide_eq (f : Int → Int → Int) (m : Machine ρ) :
    divide f m = m.merge .integer .integer (fun _ b => b != 0) f := by
  obtain ⟨⟨xs, _, _, _, _, _⟩, _, _, _, _⟩ := m
  rcases xs with _ | ⟨b, _ | ⟨a, rest⟩⟩
  · rfl
  · rfl
  · by_cases hb : b = 0
    · subst hb; rfl
    · exact (if_neg hb).trans (if_pos (bne_iff_ne.2 hb)).symm

theorem IntegerOp.compare_eq (o : Options) (p : Int → Int → Bool) (m : Machine ρ) :
    compare o p m = m.merge .integer .boolean (fun _ _ => o.enables .boolean) p := by
  obtain ⟨⟨xs, _, _, _, _, _⟩, _, _, _, _⟩ := m
  rcases xs with _ | ⟨b, _ | ⟨a, rest⟩⟩ <;> rfl

theorem IntegerOp.ofBoolean_eq (m : Machine ρ) :
    ofBoolean m = m.move .boolean .integer (fun _ => true) (fun b => if b then 1 else 0) := by
  obtain ⟨⟨_, _, xs, _, _, _⟩, _, _, _, _⟩ := m
  rcases xs with _ | ⟨b, rest⟩ <;> rfl

theorem IntegerOp.ofFloat_eq (m : Machine ρ) :
    ofFloat m = m.move .float .integer Number.isFinite (fun x => Number.clamp (Number.truncate x)) := by
  obtain ⟨⟨_, xs, _, _, _, _⟩, _, _, _, _⟩ := m
  rcases xs with _ | ⟨x, rest⟩ <;> rfl

theorem FloatOp.binary_eq (f : Float → Float → Float) (m : Machine ρ) :
    binary f m = m.merge .float .float (fun _ _ => true) f := by
  obtain ⟨⟨_, xs, _, _, _, _⟩, _, _, _, _⟩ := m
  rcases xs with _ | ⟨b, _ | ⟨a, rest⟩⟩ <;> rfl

theorem FloatOp.divide_eq (f : Float → Float → Float) (m : Machine ρ) :
    divide f m = m.merge .float .float (fun _ b => !(b == 0.0)) f := by
  obtain ⟨⟨_, xs, _, _, _, _⟩, _, _, _, _⟩ := m
  rcases xs with _ | ⟨b, _ | ⟨a, rest⟩⟩
  · rfl
  · rfl
  · by_cases hb : (b == 0.0) = true
    · exact (if_pos hb).trans (if_neg (by simp [hb])).symm
    · exact (if_neg hb).trans (if_pos (by simpa using hb)).symm

theorem FloatOp.compare_eq (o : Options) (p : Float → Float → Bool) (m : Machine ρ) :
    compare o p m = m.merge .float .boolean (fun _ _ => o.enables .boolean) p := by
  obtain ⟨⟨_, xs, _, _, _, _⟩, _, _, _, _⟩ := m
  rcases xs with _ | ⟨b, _ | ⟨a, rest⟩⟩ <;> rfl

theorem FloatOp.unary_eq (f : Float → Float) (m : Machine ρ) :
    unary f m = m.move .float .float Number.isFinite f := by
  obtain ⟨⟨_, xs, _, _, _, _⟩, _, _, _, _⟩ := m
  rcases xs with _ | ⟨x, rest⟩ <;> rfl

theorem FloatOp.ofBoolean_eq (m : Machine ρ) :
    ofBoolean m = m.move .boolean .float (fun _ => true) (fun b => if b then 1.0 else 0.0) := by
  obtain ⟨⟨_, _, xs, _, _, _⟩, _, _, _, _⟩ := m
  rcases xs with _ | ⟨b, rest⟩ <;> rfl

theorem BooleanOp.binary_eq (f : Bool → Bool → Bool) (m : Machine ρ) :
    binary f m = m.merge .boolean .boolean (fun _ _ => true) f := by
  obtain ⟨⟨_, _, xs, _, _, _⟩, _, _, _, _⟩ := m
  rcases xs with _ | ⟨b, _ | ⟨a, rest⟩⟩ <;> rfl

theorem BooleanOp.negate_eq (m : Machine ρ) : negate m = m.move .boolean .boolean (fun _ => true) (! ·) := by
  obtain ⟨⟨_, _, xs, _, _, _⟩, _, _, _, _⟩ := m
  rcases xs with _ | ⟨b, rest⟩ <;> rfl

theorem BooleanOp.ofFloat_eq (m : Machine ρ) :
    ofFloat m = m.move .float .boolean (fun _ => true) (· != 0.0) := by
  obtain ⟨⟨_, xs, _, _, _, _⟩, _, _, _, _⟩ := m
  rcases xs with _ | ⟨x, rest⟩ <;> rfl

theorem BooleanOp.ofInteger_eq (m : Machine ρ) :
    ofInteger m = m.move .integer .boolean (fun _ => true) (· != (0 : Int)) := by
  obtain ⟨⟨xs, _, _, _, _, _⟩, _, _, _, _⟩ := m
  rcases xs with _ | ⟨n, rest⟩ <;> rfl

theorem ExecOp.constant_eq (m : Machine ρ) :
    constant m = m.merge .exec .exec (fun _ _ => true) (fun _ a => a) := by
  obtain ⟨⟨_, _, _, _, xs, _⟩, _, _, _, _⟩ := m
  rcases xs with _ | ⟨a, _ | ⟨b, rest⟩⟩ <;> rfl

theorem CodeOp.binary_eq (o : Options) (f : Tree → Tree → Tree) (m : Machine ρ) :
    binary o f m = m.merge .code .code (fun second top => o.fits (f second top)) f := by
  obtain ⟨⟨_, _, _, _, _, xs⟩, _, _, _, _⟩ := m
  rcases xs with _ | ⟨top, _ | ⟨second, rest⟩⟩ <;> rfl

theorem CodeOp.unary_eq (f : Tree → Tree) (m : Machine ρ) :
    unary f m = m.move .code .code (fun _ => true) f := by
  obtain ⟨⟨_, _, _, _, _, xs⟩, _, _, _, _⟩ := m
  rcases xs with _ | ⟨top, rest⟩ <;> rfl

theorem CodeOp.test_eq (o : Options) (p : Tree → Bool) (m : Machine ρ) :
    test o p m = m.move .code .boolean (fun _ => o.enables .boolean) p := by
  obtain ⟨⟨_, _, _, _, _, xs⟩, _, _, _, _⟩ := m
  rcases xs with _ | ⟨top, rest⟩ <;> rfl

theorem CodeOp.measure_eq (o : Options) (f : Tree → Int) (m : Machine ρ) :
    measure o f m = m.move .code .integer (fun _ => o.enables .integer) f := by
  obtain ⟨⟨_, _, _, _, _, xs⟩, _, _, _, _⟩ := m
  rcases xs with _ | ⟨top, rest⟩ <;> rfl

theorem CodeOp.testMember_eq (o : Options) (m : Machine ρ) :
    testMember o m = m.merge .code .boolean (fun _ _ => o.enables .boolean)
      (fun second top => top.items.contains second) := by
  obtain ⟨⟨_, _, _, _, _, xs⟩, _, _, _, _⟩ := m
  rcases xs with _ | ⟨top, _ | ⟨second, rest⟩⟩ <;> rfl

theorem CodeOp.executePopped_eq (m : Machine ρ) :
    executePopped m = m.move .code .exec (fun _ => true) id := by
  obtain ⟨⟨_, _, _, _, _, xs⟩, _, _, _, _⟩ := m
  rcases xs with _ | ⟨top, rest⟩ <;> rfl

theorem CodeOp.quoteNext_eq (o : Options) (m : Machine ρ) : quoteNext o m = m.move .exec .code o.fits id := by
  obtain ⟨⟨_, _, _, _, xs, _⟩, _, _, _, _⟩ := m
  rcases xs with _ | ⟨t, rest⟩ <;> rfl

/-! ## Random literals

What is drawn is named before a machine is looked into, so that no proof evaluates a draw. -/

section Random

variable [RandomSource ρ]

theorem IntegerOp.exists_random_eq (o : Options) (m : Machine ρ) :
    ∃ n supply, random o m = m.pushDrawn .integer n supply := by
  unfold random
  rcases Draw.between o.minInteger o.maxInteger m.supply.source with ⟨n, source⟩
  exact ⟨n, _, rfl⟩

theorem FloatOp.exists_random_eq (o : Options) (m : Machine ρ) :
    ∃ x supply, random o m = m.pushDrawn .float x supply := by
  unfold random
  rcases Draw.uniform o.minFloat o.maxFloat m.supply.source with ⟨x, source⟩
  exact ⟨x, _, rfl⟩

theorem BooleanOp.exists_random_eq (m : Machine ρ) : ∃ b supply, random m = m.pushDrawn .boolean b supply := by
  unfold random
  rcases Draw.chance 0.5 m.supply.source with ⟨b, source⟩
  exact ⟨b, _, rfl⟩

/-- There has to be a name to choose. -/
theorem NameOp.exists_boundName_eq {m : Machine ρ} (h : 1 ≤ m.bindings.size) :
    ∃ name supply, boundName m = m.pushDrawn .name name supply := by
  rw [← Bindings.length_names] at h
  obtain ⟨name, names, hn⟩ := List.exists_cons_of_length_pos h
  unfold boundName
  rw [hn]
  dsimp only
  rcases Draw.choose name names m.supply.source with ⟨chosen, source⟩
  exact ⟨chosen, _, rfl⟩

theorem NameOp.boundName_of_size_zero {m : Machine ρ} (h : ¬ 1 ≤ m.bindings.size) : boundName m = m := by
  rw [← Bindings.length_names] at h
  have hn : m.bindings.names = [] := List.length_eq_zero_iff.1 (by omega)
  simp only [boundName, hn]

end Random
end PushMachine
