import PushMachine.Proofs.Evaluation
import PushMachine.Proofs.Growth.Code
import PushMachine.Proofs.Parsing
import PushMachine.Proofs.Precondition.Basic
/-!
# Where the items of a stack come from

`Instruction.Makes` lists everything that an instruction can put on a stack beside what was there: one constructor for
each producer, with what the instruction has checked by then.  `Instruction.run_origin` says that there is nothing else,
and `Machine.execute_origin` says the same of an item of EXEC, so whatever is to hold of every item of a stack is shown
once for each constructor.
-/
namespace PushMachine

variable {ρ : Type}

/-! ## What holds of every item -/

namespace Machine

/-- The machine once its next item is popped and counted. -/
def popped (m : Machine ρ) (rest : Stack Tree) : Machine ρ := { m with exec := rest, steps := m.steps + 1 }

/-- `P` holds of every item of every stack. -/
def Every (P : (k : Kind) → k.Item → Prop) (m : Machine ρ) : Prop := ∀ k, ∀ x ∈ m.stack k, P k x

namespace Every

variable {P : (k : Kind) → k.Item → Prop} {m : Machine ρ} {j k : Kind}

theorem congr (h : m.Every P) {m' : Machine ρ} (hs : m'.toStacks = m.toStacks) : m'.Every P := by
  intro k x hx
  rw [stack, hs] at hx
  exact h k x hx

theorem setStack (h : m.Every P) {xs : Stack k.Item} (hxs : ∀ x ∈ xs, P k x) : (m.setStack k xs).Every P := by
  intro j x hx
  by_cases hj : j = k
  · subst hj
    rw [stack_setStack_self] at hx
    exact hxs x hx
  · rw [stack_setStack_of_ne m hj] at hx
    exact h j x hx

theorem push (h : m.Every P) {x : k.Item} (hx : P k x) : (m.setStack k (x :: m.stack k)).Every P :=
  h.setStack (List.forall_mem_cons.2 ⟨hx, h k⟩)

theorem sublist (h : m.Every P) {xs : Stack k.Item} (hxs : ∀ x ∈ xs, x ∈ m.stack k) : (m.setStack k xs).Every P :=
  h.setStack fun x hx => h k x (hxs x hx)

theorem pop (h : m.Every P) {x : k.Item} {xs : Stack k.Item} (hs : m.stack k = x :: xs) : (m.setStack k xs).Every P :=
  h.sublist fun y hy => by rw [hs]; exact List.mem_cons_of_mem x hy

theorem move (h : m.Every P) {accepts : j.Item → Bool} {f : j.Item → k.Item}
    (hf : ∀ x ∈ m.stack j, accepts x = true → P k (f x)) : (m.move j k accepts f).Every P := by
  unfold Machine.move
  split
  · rename_i x rest hs
    split
    · rename_i hx
      exact (h.pop hs).push (hf x (by rw [hs]; exact List.mem_cons_self) hx)
    · exact h
  · exact h

theorem merge (h : m.Every P) {accepts : j.Item → j.Item → Bool} {f : j.Item → j.Item → k.Item}
    (hf : ∀ a ∈ m.stack j, ∀ b ∈ m.stack j, accepts a b = true → P k (f a b)) : (m.merge j k accepts f).Every P := by
  unfold Machine.merge
  split
  · rename_i b a rest hs
    split
    · rename_i hab
      have hrest : (m.setStack j rest).Every P := h.sublist fun x hx => by
        rw [hs]
        exact List.mem_cons_of_mem b (List.mem_cons_of_mem a hx)
      exact hrest.push (hf a (by rw [hs]; simp) b (by rw [hs]; simp) hab)
    · exact h
  · exact h

theorem pushDrawn (h : m.Every P) {x : k.Item} (hx : P k x) (supply : Supply ρ) : (m.pushDrawn k x supply).Every P :=
  (h.push hx).congr rfl

theorem pushEnabled (h : m.Every P) (o : Options) {x : k.Item} (hx : P k x) : (m.pushEnabled o k x).Every P := by
  unfold Machine.pushEnabled
  split
  · exact h.push hx
  · exact h

theorem popped (h : m.Every P) {t : Tree} {rest : Stack Tree} (he : m.exec = t :: rest) : (m.popped rest).Every P :=
  (h.pop (k := .exec) he).congr rfl

end Every
end Machine

/-! ## What an instruction makes -/

/-- **What an instruction can put on a stack** beside what is there.  Of floats and booleans nothing is said. -/
inductive Instruction.Makes [RandomSource ρ] (o : Options) (m : Machine ρ) : Instruction → (k : Kind) → k.Item → Prop
  | float (i : Instruction) (x : Float) : Makes o m i .float x
  | boolean (i : Instruction) (b : Bool) : Makes o m i .boolean b
  | depth (k : Kind) : Makes o m (.stack k .stackdepth) .integer ((m.stack k).length : Int)
  | wrapped (op : IntegerOp) (n : Int) : Makes o m (.integer op) .integer (Number.wrap n)
  | remainder {a b : Int} : a ∈ m.integer → b ∈ m.integer → b ≠ 0 → Makes o m (.integer .mod) .integer (a.fmod b)
  | truth (b : Bool) : Makes o m (.integer .fromBoolean) .integer (if b then (1 : Int) else 0)
  | clamped (n : Int) : Makes o m (.integer .fromFloat) .integer (Number.clamp n)
  | drawn : Makes o m (.integer .rand) .integer (Draw.between o.minInteger o.maxInteger m.supply.source).1
  | length {t : Tree} : t ∈ m.code → Makes o m (.code .length) .integer (t.items.length : Int)
  | size {t : Tree} : t ∈ m.code → Makes o m (.code .size) .integer (t.points : Int)
  | minted {name : String} : (Supply.newName m.supply).1 = .ok name → Makes o m (.name .rand) .name name
  | chosen {name : String} : name ∈ m.bindings.names → Makes o m (.name .randBoundName) .name name
  | pair {b c : Tree} : b ∈ m.exec → c ∈ m.exec → Makes o m (.exec .s) .exec (.list [b, c])
  | recursion {a : Tree} : a ∈ m.exec → Makes o m (.exec .y) .exec (.list [ExecOp.recurToken, a])
  | range {current last : Int} {body : Tree} : current ∈ m.integer → last ∈ m.integer → current ≠ last →
      body ∈ m.exec → Makes o m (.exec .doRange) .exec (ExecOp.rangeLoop (ExecOp.nearer current last) last body)
  | count {n : Int} {body : Tree} : n ∈ m.integer → 1 ≤ n → body ∈ m.exec →
      Makes o m (.exec .doCount) .exec (ExecOp.rangeLoop 0 (n - 1) body)
  | times {n : Int} {body : Tree} : n ∈ m.integer → 1 ≤ n → body ∈ m.exec →
      Makes o m (.exec .doTimes) .exec (ExecOp.rangeLoop 0 (n - 1) (ExecOp.withoutIndex body))
  | executed {op : CodeOp} {t : Tree} : t ∈ m.code → Makes o m (.code op) .exec t
  | popping : Makes o m (.code .doKeep) .exec CodeOp.popToken
  | built {op : CodeOp} {t : Tree} : o.fits t = true → (∀ s ∈ t.tokens, ∃ u ∈ m.code, s ∈ u.tokens) →
      Makes o m (.code op) .code t
  | part {op : CodeOp} {t u : Tree} : u ∈ m.code → t.points ≤ u.points → t.tokens ⊆ u.tokens →
      Makes o m (.code op) .code t
  | recalled {name : String} {t : Tree} : name ∈ m.name.head? → m.bindings.lookup name = some t →
      Makes o m (.code .definition) .code t
  | quoted {t : Tree} : t ∈ m.exec → o.fits t = true → Makes o m (.code .quote) .code t
  | converted {op : CodeOp} {k : Kind} {x : k.Item} {t : Tree} : k ≠ .exec → k ≠ .code → x ∈ m.stack k →
      Tree.ofItem k x = .ok t → Makes o m (.code op) .code t
  | generated {n : Int} {t : Tree} : (RandomCode.upTo o (CodeOp.randomLimit o n) m.supply).1 = .ok t →
      1 ≤ CodeOp.randomLimit o n → Makes o m (.code .rand) .code t

section Run

variable [RandomSource ρ] {o : Options} {m : Machine ρ}

/-- The item was there before, or the instruction made it. -/
def Instruction.Origin (o : Options) (m : Machine ρ) (i : Instruction) (k : Kind) (x : k.Item) : Prop :=
  x ∈ m.stack k ∨ i.Makes o m k x

open Instruction (Origin Makes)

theorem Machine.every_origin (i : Instruction) : m.Every (i.Origin o m) := fun _ _ hx => .inl hx

/-! ### Stack manipulations -/

namespace StackOp

variable {k : Kind}

theorem withDepth_origin {op : StackOp} {act : Int → Stack k.Item → Stack k.Item}
    (hact : ∀ d xs, xs ≠ [] → ∀ x ∈ act d xs, x ∈ xs) :
    (withDepth k act m).Every ((Instruction.stack k op).Origin o m) := by
  have hm := m.every_origin (o := o) (.stack k op)
  unfold withDepth
  split
  · exact hm
  · rename_i depth rest hi
    dsimp only
    split
    · exact hm
    · rename_i hne
      have hp : (m.setStack .integer rest).Every ((Instruction.stack k op).Origin o m) := hm.pop (k := .integer) hi
      exact hp.sublist (hact depth _ hne)

theorem defineTop_origin : (defineTop k m).machine.Every ((Instruction.stack k .define).Origin o m) := by
  have hm := m.every_origin (o := o) (.stack k .define)
  unfold defineTop
  split
  · exact hm
  · rename_i key names hn
    have hp : (m.setStack .name names).Every ((Instruction.stack k .define).Origin o m) := hm.pop (k := .name) hn
    dsimp only
    split
    · exact hm
    · rename_i x xs hx
      have hp' := hp.pop hx
      split
      · exact hp'.congr rfl
      · exact hp'

theorem run_origin (op : StackOp) : (op.run o k m).machine.Every ((Instruction.stack k op).Origin o m) := by
  have hm := m.every_origin (o := o) (.stack k op)
  cases op with
  | equal =>
    rw [run, equalTop_eq]
    exact hm.merge (j := k) (k := .boolean) fun a _ b _ _ => .inr (.boolean _ (k.same a b))
  | define => exact defineTop_origin
  | dup =>
    refine hm.sublist fun x hx => ?_
    cases hs : m.stack k with
    | nil => rw [hs] at hx; exact hx
    | cons y ys =>
      rw [hs, Stack.dup] at hx
      rcases List.mem_cons.1 hx with rfl | hx
      · exact List.mem_cons_self
      · exact hx
  | flush => exact hm.sublist fun x hx => by cases hx
  | pop => exact hm.sublist fun x hx => List.mem_of_mem_tail hx
  | rot => exact hm.sublist fun x hx => (Stack.rot_perm _).mem_iff.1 hx
  | swap => exact hm.sublist fun x hx => (Stack.swap_perm _).mem_iff.1 hx
  | stackdepth =>
    simp only [run, Outcome.machine]
    split
    · exact hm.push (k := .integer) (.inr (.depth k))
    · exact hm
  | shove => exact withDepth_origin fun d xs _ x hx => (Stack.shoveTop_perm d xs).mem_iff.1 hx
  | yank => exact withDepth_origin fun d xs _ x hx => (Stack.yank_perm d xs).mem_iff.1 hx
  | yankdup =>
    refine withDepth_origin fun d xs hne x hx => ?_
    obtain ⟨y, hy, he⟩ := Stack.exists_yankdup_eq d hne
    rw [he] at hx
    rcases List.mem_cons.1 hx with rfl | hx
    · exact hy
    · exact hx

end StackOp

/-! ### Literals -/

theorem IntegerOp.run_origin (op : IntegerOp) : (op.run o m).Every ((Instruction.integer op).Origin o m) := by
  have hm := m.every_origin (o := o) (.integer op)
  cases op with
  | add | sub | mul => rw [run, binary_eq]; exact hm.merge fun _ _ _ _ _ => .inr (.wrapped _ _)
  | div => rw [run, divide_eq]; exact hm.merge fun _ _ _ _ _ => .inr (.wrapped _ _)
  | mod =>
    rw [run, divide_eq]
    exact hm.merge (j := .integer) (k := .integer) fun a ha b hb hne => .inr (.remainder ha hb (bne_iff_ne.1 hne))
  | less | greater => rw [run, compare_eq]; exact hm.merge fun _ _ _ _ _ => .inr (.boolean _ _)
  | max =>
    rw [run, binary_eq]
    refine hm.merge (j := .integer) (k := .integer) fun a ha b hb _ => .inl ?_
    rcases Int.max_def a b ▸ ite_eq_or_eq (a ≤ b) b a with h | h
    · rw [h]; exact hb
    · rw [h]; exact ha
  | min =>
    rw [run, binary_eq]
    refine hm.merge (j := .integer) (k := .integer) fun a ha b hb _ => .inl ?_
    rcases Int.min_def a b ▸ ite_eq_or_eq (a ≤ b) a b with h | h
    · rw [h]; exact ha
    · rw [h]; exact hb
  | fromBoolean => rw [run, ofBoolean_eq]; exact hm.move fun b _ _ => .inr (.truth b)
  | fromFloat => rw [run, ofFloat_eq]; exact hm.move fun _ _ _ => .inr (.clamped _)
  | rand => exact (hm.push (k := .integer) (.inr .drawn)).congr rfl

theorem FloatOp.ofInteger_origin : (ofInteger m).machine.Every ((Instruction.float .fromInteger).Origin o m) := by
  have hm := m.every_origin (o := o) (.float .fromInteger)
  unfold ofInteger
  split
  · rename_i n rest hi
    have hp := hm.pop (k := .integer) hi
    split
    · exact hp.push (k := .float) (.inr (.float _ _))
    · exact hp
  · exact hm

theorem FloatOp.run_origin (op : FloatOp) : (op.run o m).machine.Every ((Instruction.float op).Origin o m) := by
  have hm := m.every_origin (o := o) (.float op)
  cases op with
  | add | sub | mul | max | min => rw [run, binary_eq]; exact hm.merge fun _ _ _ _ _ => .inr (.float _ _)
  | div | mod => rw [run, divide_eq]; exact hm.merge fun _ _ _ _ _ => .inr (.float _ _)
  | less | greater => rw [run, compare_eq]; exact hm.merge fun _ _ _ _ _ => .inr (.boolean _ _)
  | sin | cos | tan => rw [run, unary_eq]; exact hm.move fun _ _ _ => .inr (.float _ _)
  | fromBoolean => rw [run, ofBoolean_eq]; exact hm.move fun _ _ _ => .inr (.float _ _)
  | fromInteger => exact ofInteger_origin
  | rand =>
    obtain ⟨x, supply, he⟩ := exists_random_eq o m
    rw [run, he]
    exact hm.pushDrawn (k := .float) (.inr (.float _ _)) supply

theorem BooleanOp.run_origin (op : BooleanOp) : (op.run m).Every ((Instruction.boolean op).Origin o m) := by
  have hm := m.every_origin (o := o) (.boolean op)
  cases op with
  | and | or => rw [run, binary_eq]; exact hm.merge fun _ _ _ _ _ => .inr (.boolean _ _)
  | not => rw [run, negate_eq]; exact hm.move fun _ _ _ => .inr (.boolean _ _)
  | fromFloat => rw [run, ofFloat_eq]; exact hm.move fun _ _ _ => .inr (.boolean _ _)
  | fromInteger => rw [run, ofInteger_eq]; exact hm.move fun _ _ _ => .inr (.boolean _ _)
  | rand =>
    obtain ⟨x, supply, he⟩ := exists_random_eq m
    rw [run, he]
    exact hm.pushDrawn (k := .boolean) (.inr (.boolean _ _)) supply

theorem Draw.choose_mem {α : Type} (x : α) (xs : List α) (s : ρ) : (choose x xs s).1 ∈ x :: xs := by
  unfold choose
  dsimp only
  rw [List.getD_eq_getElem?_getD]
  cases h : (x :: xs)[(below (xs.length + 1) s).1]? with
  | none => exact List.mem_cons_self
  | some y => exact List.mem_of_getElem? h

theorem NameOp.run_origin (op : NameOp) : (op.run m).machine.Every ((Instruction.name op).Origin o m) := by
  have hm := m.every_origin (o := o) (.name op)
  cases op with
  | quote => exact hm.congr rfl
  | rand =>
    rw [run, newName]
    split
    · rename_i name supply hn
      exact (hm.push (k := .name) (.inr (.minted (by rw [hn])))).congr rfl
    · exact hm.congr rfl
  | randBoundName =>
    rw [run, boundName]
    split
    · exact hm
    · rename_i name names hn
      have hc : (Draw.choose name names m.supply.source).1 ∈ m.bindings.names := by
        rw [hn]
        exact Draw.choose_mem name names _
      exact (hm.push (k := .name) (.inr (.chosen hc))).congr rfl

/-! ### Code -/

namespace ExecOp

theorem choice_origin : (choice m).Every ((Instruction.exec .choose).Origin o m) := by
  have hm := m.every_origin (o := o) (.exec .choose)
  unfold choice
  split
  · rename_i c booleans a b rest hb he
    have hp := hm.pop (k := .boolean) hb
    refine hp.sublist (k := .exec) fun x hx => ?_
    have hs : (m.setStack .boolean booleans).stack .exec = a :: b :: rest := he
    rw [hs]
    rcases List.mem_cons.1 hx with rfl | hx
    · split <;> simp
    · simp [hx]
  · exact hm

theorem distribute_origin : (distribute o m).Every ((Instruction.exec .s).Origin o m) := by
  have hm := m.every_origin (o := o) (.exec .s)
  unfold distribute
  split
  · rename_i a b c rest he
    split
    · have hall : ∀ t ∈ a :: b :: c :: rest, t ∈ m.exec := by rw [he]; exact fun t ht => ht
      refine hm.setStack (k := .exec) ?_
      simp only [List.forall_mem_cons] at hall ⊢
      obtain ⟨ha, hb, hc, hrest⟩ := hall
      exact ⟨.inl ha, .inl hc, .inr (.pair hb hc), fun t ht => .inl (hrest t ht)⟩
    · exact hm
  · exact hm

theorem recur_origin : (recur o m).Every ((Instruction.exec .y).Origin o m) := by
  have hm := m.every_origin (o := o) (.exec .y)
  unfold recur
  split
  · rename_i a rest he
    split
    · have hall : ∀ t ∈ a :: rest, t ∈ m.exec := by rw [he]; exact fun t ht => ht
      refine hm.setStack (k := .exec) ?_
      simp only [List.forall_mem_cons] at hall ⊢
      obtain ⟨ha, hrest⟩ := hall
      exact ⟨.inl ha, .inr (.recursion ha), fun t ht => .inl (hrest t ht)⟩
    · exact hm
  · exact hm

theorem range_origin : (range o m).machine.Every ((Instruction.exec .doRange).Origin o m) := by
  have hm := m.every_origin (o := o) (.exec .doRange)
  unfold range
  split
  · rename_i last current integers body rest hi he
    have hp := hm.pop (k := .integer) hi
    have hints : ∀ n ∈ last :: current :: integers, n ∈ m.integer := by rw [hi]; exact fun n hn => hn
    have hall : ∀ t ∈ body :: rest, t ∈ m.exec := by rw [he]; exact fun t ht => ht
    simp only [List.forall_mem_cons] at hints hall
    split
    · exact hp.setStack (k := .exec) (List.forall_mem_cons.2 ⟨.inl hall.1, fun t ht => .inl (hall.2 t ht)⟩)
    · rename_i hne
      split
      · exact hm
      · rename_i loop hbuilt
        obtain rfl : loop = rangeLoop (nearer current last) last body := eq_of_buildLoop hbuilt
        split
        · refine hp.setStack (k := .exec) ?_
          simp only [List.forall_mem_cons]
          exact ⟨.inl hall.1, .inr (.range hints.2.1 hints.1 hne hall.1), fun t ht => .inl (hall.2 t ht)⟩
        · exact hm
  · exact hm

/-- The loop takes the place of its body. -/
theorem countWith_origin {op : ExecOp} {wrapBody : Tree → Tree}
    (hloop : ∀ {n body}, n ∈ m.integer → 1 ≤ n → body ∈ m.exec →
      Makes o m (.exec op) .exec (rangeLoop 0 (n - 1) (wrapBody body))) :
    (countWith o wrapBody m).machine.Every ((Instruction.exec op).Origin o m) := by
  have hm := m.every_origin (o := o) (.exec op)
  unfold countWith
  split
  · rename_i n integers body rest hi he
    split
    · exact hm
    · rename_i hn
      split
      · exact hm
      · rename_i loop hbuilt
        obtain rfl := eq_of_buildLoop hbuilt
        split
        · have hp := hm.pop (k := .integer) hi
          have hall : ∀ t ∈ body :: rest, t ∈ m.exec := by rw [he]; exact fun t ht => ht
          simp only [List.forall_mem_cons] at hall
          refine hp.setStack (k := .exec) (List.forall_mem_cons.2 ⟨.inr ?_, fun t ht => .inl (hall.2 t ht)⟩)
          exact hloop (by rw [hi]; exact List.mem_cons_self) (Int.not_lt.1 hn) hall.1
        · exact hm
  · exact hm

theorem run_origin (op : ExecOp) : (op.run o m).machine.Every ((Instruction.exec op).Origin o m) := by
  cases op with
  | choose => exact choice_origin
  | k =>
    rw [run, constant_eq]
    exact (m.every_origin (o := o) (.exec .k)).merge (j := .exec) (k := .exec) fun _ _ b hb _ => .inl hb
  | s => exact distribute_origin
  | y => exact recur_origin
  | doRange => exact range_origin
  | doCount => exact countWith_origin .count
  | doTimes => exact countWith_origin .times

end ExecOp

namespace Tree

theorem tokens_items (t : Tree) : tokensAll t.items = t.tokens := by
  cases t with
  | atom token => rfl
  | list ts => rw [items, tokens]

theorem tokens_subset_of_mem {t : Tree} {ts : List Tree} (h : t ∈ ts) : t.tokens ⊆ tokensAll ts := by
  intro s hs
  rw [tokensAll_eq_flatMap]
  exact List.mem_flatMap.2 ⟨t, h, hs⟩

theorem tokens_getD_items_subset (t : Tree) (i : Nat) : (t.items.getD i (.list [])).tokens ⊆ t.tokens := by
  rw [List.getD_eq_getElem?_getD, ← tokens_items t]
  cases h : t.items[i]? with
  | none => exact List.nil_subset _
  | some u => exact tokens_subset_of_mem (List.mem_of_getElem? h)

end Tree

namespace CodeOp

/-- What is put together from two trees of CODE. -/
theorem binary_origin {op : CodeOp} {f : Tree → Tree → Tree}
    (hf : ∀ a b, (f a b).tokens ⊆ a.tokens ++ b.tokens) :
    (binary o f m).Every ((Instruction.code op).Origin o m) := by
  rw [binary_eq]
  refine (m.every_origin (o := o) (.code op)).merge (j := .code) (k := .code) fun a ha b hb hfit => .inr ?_
  refine .built hfit fun s hs => ?_
  rcases List.mem_append.1 (hf a b hs) with h | h
  · exact ⟨a, ha, h⟩
  · exact ⟨b, hb, h⟩

/-- What is taken out of a tree of CODE. -/
theorem unary_origin {op : CodeOp} {f : Tree → Tree} (hp : ∀ t, (f t).points ≤ t.points)
    (hf : ∀ t, (f t).tokens ⊆ t.tokens) : (unary f m).Every ((Instruction.code op).Origin o m) := by
  rw [unary_eq]
  exact (m.every_origin (o := o) (.code op)).move (j := .code) (k := .code) fun t ht _ =>
    .inr (.part ht (hp t) (hf t))

theorem pickItem_origin : (pickItem m).Every ((Instruction.code .nth).Origin o m) := by
  have hm := m.every_origin (o := o) (.code .nth)
  unfold pickItem
  split
  · rename_i n integers top rest hi hc
    have hp := hm.pop (k := .integer) hi
    have hall : ∀ t ∈ top :: rest, t ∈ m.code := by rw [hc]; exact fun t ht => ht
    simp only [List.forall_mem_cons] at hall
    refine hp.setStack (k := .code) (List.forall_mem_cons.2 ⟨.inr ?_, fun t ht => .inl (hall.2 t ht)⟩)
    exact .part hall.1 (top.points_getD_items_le _) (top.tokens_getD_items_subset _)
  · exact hm

theorem pushDefinition_origin : (pushDefinition m).Every ((Instruction.code .definition).Origin o m) := by
  have hm := m.every_origin (o := o) (.code .definition)
  unfold pushDefinition
  split
  · rename_i name names hn
    split
    · rename_i t ht
      exact (hm.pop (k := .name) hn).push (k := .code) (.inr (.recalled (by rw [hn]; rfl) ht))
    · exact hm
  · exact hm

theorem executeTop_origin : (executeTop m).Every ((Instruction.code .doKeep).Origin o m) := by
  have hm := m.every_origin (o := o) (.code .doKeep)
  unfold executeTop
  split
  · rename_i top rest hc
    have htop : top ∈ m.code := by rw [hc]; exact List.mem_cons_self
    refine hm.setStack (k := .exec) ?_
    simp only [List.forall_mem_cons]
    exact ⟨.inr (.executed htop), .inr .popping, fun t ht => .inl ht⟩
  · exact hm

theorem choice_origin : (choice m).Every ((Instruction.code .choose).Origin o m) := by
  have hm := m.every_origin (o := o) (.code .choose)
  unfold choice
  split
  · rename_i c booleans top second rest hb hc
    have hall : ∀ t ∈ top :: second :: rest, t ∈ m.code := by rw [hc]; exact fun t ht => ht
    simp only [List.forall_mem_cons] at hall
    have hp : ((m.setStack .boolean booleans).setStack .code rest).Every ((Instruction.code .choose).Origin o m) :=
      (hm.pop (k := .boolean) hb).setStack (k := .code) fun t ht => .inl (hall.2.2 t ht)
    refine hp.push (k := .exec) (.inr (.executed ?_))
    split
    · exact hall.2.1
    · exact hall.1
  · exact hm

theorem ofStack_origin {op : CodeOp} {k : Kind} (he : k ≠ .exec) (hc : k ≠ .code) :
    (ofStack k m).machine.Every ((Instruction.code op).Origin o m) := by
  have hm := m.every_origin (o := o) (.code op)
  unfold ofStack
  split
  · exact hm
  · rename_i x xs hx
    have hp := hm.pop hx
    dsimp only
    split
    · rename_i t ht
      exact hp.push (k := .code) (.inr (.converted he hc (by rw [hx]; exact List.mem_cons_self) ht))
    · exact hp

theorem random_origin : (random o m).machine.Every ((Instruction.code .rand).Origin o m) := by
  have hm := m.every_origin (o := o) (.code .rand)
  unfold random
  split
  · exact hm
  · rename_i n integers hi
    split
    · exact hm
    · rename_i hn
      have hp := hm.pop (k := .integer) hi
      split
      · rename_i t supply ht
        exact (hp.push (k := .code) (.inr (.generated (n := n) (by rw [ht]) (by omega)))).congr rfl
      · exact hp.congr rfl

theorem run_origin (op : CodeOp) : (op.run o m).machine.Every ((Instruction.code op).Origin o m) := by
  have hm := m.every_origin (o := o) (.code op)
  cases op with
  | append =>
    refine binary_origin fun a b s hs => ?_
    rw [Tree.tokens, Tree.tokensAll_eq_flatMap, List.flatMap_append, ← Tree.tokensAll_eq_flatMap,
      ← Tree.tokensAll_eq_flatMap, Tree.tokens_items, Tree.tokens_items] at hs
    exact List.mem_append.2 (List.mem_append.1 hs).symm
  | cons =>
    refine binary_origin fun a b s hs => ?_
    rwa [Tree.tokens, Tree.tokensAll, Tree.tokens_items] at hs
  | list =>
    refine binary_origin fun a b s hs => ?_
    rwa [Tree.tokens, Tree.tokensAll, Tree.tokensAll, Tree.tokensAll, List.append_nil] at hs
  | car =>
    refine unary_origin Tree.points_first_le fun t => ?_
    have h := t.tokens_getD_items_subset 0
    rwa [List.getD_eq_getElem?_getD, ← List.head?_eq_getElem?, ← List.headD_eq_head?_getD] at h
  | cdr =>
    refine unary_origin Tree.points_others_le fun t s hs => ?_
    rw [others, Tree.tokens, Tree.tokensAll_eq_flatMap] at hs
    obtain ⟨u, hu, hs⟩ := List.mem_flatMap.1 hs
    rw [← t.tokens_items]
    exact Tree.tokens_subset_of_mem (List.mem_of_mem_tail hu) hs
  | atom | null => rw [run, test_eq]; exact hm.move fun _ _ _ => .inr (.boolean _ _)
  | member => rw [run, testMember_eq]; exact hm.merge fun _ _ _ _ _ => .inr (.boolean _ _)
  | length => rw [run, measure_eq]; exact hm.move (j := .code) (k := .integer) fun t ht _ => .inr (.length ht)
  | size => rw [run, measure_eq]; exact hm.move (j := .code) (k := .integer) fun t ht _ => .inr (.size ht)
  | nth => exact pickItem_origin
  | definition => exact pushDefinition_origin
  | doKeep => exact executeTop_origin
  | doPop =>
    rw [run, executePopped_eq]
    exact hm.move (j := .code) (k := .exec) fun t ht _ => .inr (.executed ht)
  | choose => exact choice_origin
  | quote =>
    rw [run, quoteNext_eq]
    exact hm.move (j := .exec) (k := .code) fun t ht hf => .inr (.quoted ht hf)
  | noop => exact hm
  | fromBoolean | fromFloat | fromInteger | fromName => exact ofStack_origin (by decide) (by decide)
  | rand => exact random_origin

end CodeOp

/-- **Every item after an instruction was there before, or the instruction made it.** -/
theorem Instruction.run_origin (o : Options) (m : Machine ρ) (i : Instruction) :
    (i.run o m).machine.Every (i.Origin o m) := by
  cases i with
  | stack k op => exact op.run_origin
  | integer op => exact op.run_origin
  | float op   => exact op.run_origin
  | boolean op => exact op.run_origin
  | name op    => exact op.run_origin
  | exec op    => exact op.run_origin
  | code op    => exact op.run_origin

/-! ## What an instruction binds -/

theorem Bindings.mem_put {key : String} {t : Tree} {e : String × Tree} :
    ∀ es : List (String × Tree), e ∈ put key t es → e = (key, t) ∨ e ∈ es
  | [],           h => .inl (List.mem_singleton.1 h)
  | (k, u) :: es, h => by
    rw [put] at h
    split at h
    · rename_i hk
      rcases List.mem_cons.1 h with rfl | h
      · exact .inl (by rw [hk])
      · exact .inr (List.mem_cons_of_mem _ h)
    · rcases List.mem_cons.1 h with rfl | h
      · exact .inr List.mem_cons_self
      · exact (mem_put es h).imp_right (List.mem_cons_of_mem _)

/-- **Every binding after an instruction was there before, or the instruction bound an item's code to a name.** -/
theorem Instruction.run_bindings (o : Options) (m : Machine ρ) (i : Instruction) :
    ∀ e ∈ (i.run o m).machine.bindings.entries, e ∈ m.bindings.entries ∨
      ∃ k, i = .stack k .define ∧ ∃ key ∈ m.name, ∃ x ∈ m.stack k, e.1 = Text.lower key ∧ Tree.ofItem k x = .ok e.2 := by
  intro e he
  cases hb : i.binds with
  | false => rw [(i.run_frame o m).bindings hb] at he; exact .inl he
  | true =>
    obtain ⟨k, rfl⟩ : ∃ k, i = .stack k .define := by
      unfold binds at hb
      split at hb
      · exact ⟨_, rfl⟩
      · cases hb
    rw [run, StackOp.run, StackOp.defineTop] at he
    split at he
    · exact .inl he
    · rename_i key names hn
      dsimp only at he
      split at he
      · exact .inl he
      · rename_i x xs hx
        split at he
        · rename_i t ht
          rcases Bindings.mem_put _ he with rfl | he
          · have hkey : key ∈ m.name := by rw [hn]; exact List.mem_cons_self
            have hpopped : x ∈ (m.setStack .name names).stack k := by
              rw [show (m.setStack .name names).stack k = x :: xs from hx]
              exact List.mem_cons_self
            have hself : m.Every fun j y => y ∈ m.stack j := fun _ _ h => h
            have hmem : x ∈ m.stack k := hself.pop (k := .name) hn k x hpopped
            exact .inr ⟨k, rfl, key, hkey, x, hmem, rfl, ht⟩
          · exact .inl he
        · exact .inl he

/-! ## What executing an item gives -/

/-- **What executing an item can put on a stack** beside what is there. -/
inductive Machine.Gives (o : Options) (m : Machine ρ) : Tree → (k : Kind) → k.Item → Prop
  | item {items : List Tree} {t : Tree} : t ∈ items → Gives o m (.list items) .exec t
  | integer {token : String} {n : Int} : Token.classify token = .ok (.integer n) →
      Gives o m (.atom token) .integer n
  | float {token : String} (x : Float) : Gives o m (.atom token) .float x
  | boolean {token : String} (b : Bool) : Gives o m (.atom token) .boolean b
  | name {token name : String} : Token.classify token = .ok (.name name) → Gives o m (.atom token) .name name
  | bound {token name : String} {t : Tree} : Token.classify token = .ok (.name name) →
      m.bindings.lookup name = some t → Gives o m (.atom token) .exec t
  | made {token stack operation : String} {i : Instruction} {k : Kind} {x : k.Item} :
      Token.classify token = .ok (.instruction stack operation) → o.resolve stack operation token = .ok i →
      i.Makes o m k x → Gives o m (.atom token) k x

namespace Machine

/-- **Every item after executing an item was there before, or the execution gave it.** -/
theorem execute_origin (o : Options) (m : Machine ρ) (t : Tree) :
    (m.execute o t).machine.Every fun k x => x ∈ m.stack k ∨ m.Gives o t k x := by
  have hm : m.Every fun k x => x ∈ m.stack k ∨ m.Gives o t k x := fun _ _ hx => .inl hx
  cases t with
  | list items =>
    refine hm.setStack (k := .exec) fun u hu => ?_
    rcases List.mem_append.1 hu with hu | hu
    · exact .inr (.item hu)
    · exact .inl hu
  | atom token =>
    rw [execute]
    split
    · exact hm
    · rename_i n hc
      exact hm.pushEnabled (k := .integer) o (.inr (.integer hc))
    · exact hm.pushEnabled (k := .float) o (.inr (.float _))
    · exact hm.pushEnabled (k := .boolean) o (.inr (.boolean _))
    · rename_i name hc
      simp only [executeName, Outcome.machine]
      split
      · have hq : Every (fun k x => x ∈ m.stack k ∨ m.Gives o (.atom token) k x) { m with quoting := false } :=
          hm.congr rfl
        exact hq.pushEnabled (k := .name) o (.inr (.name hc))
      · split
        · rename_i u hu
          exact hm.push (k := .exec) (.inr (.bound hc hu))
        · exact hm.pushEnabled (k := .name) o (.inr (.name hc))
    · rename_i stack operation hc
      split
      · exact hm
      · rename_i i hr
        have hi : (i.run o m).machine.Every fun k x => x ∈ m.stack k ∨ m.Gives o (.atom token) k x :=
          fun k x hx => (i.run_origin o m k x hx).imp_right (.made hc hr)
        split <;> (rename_i h; rw [h] at hi; exact hi)

/-- What a step does is to execute the item that it pops. -/
theorem step_origin {out : Outcome Stop ρ} (h : m.step o = some out) :
    ∃ t rest, m.exec = t :: rest ∧ out = (m.popped rest).execute o t ∧
      out.machine.Every fun k x => x ∈ (m.popped rest).stack k ∨ (m.popped rest).Gives o t k x := by
  cases he : m.exec with
  | nil => rw [step_eq_none_iff.2 he] at h; cases h
  | cons t rest =>
    rw [step_of_exec he] at h
    cases h
    exact ⟨t, rest, rfl, rfl, execute_origin o _ t⟩

end Machine
end Run
end PushMachine
