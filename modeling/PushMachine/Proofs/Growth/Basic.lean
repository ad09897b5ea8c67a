import PushMachine.Proofs.Weight
/-!
# What an instruction can add

`Machine.Grows` says what every instruction does to the size of a machine: nothing in it gets larger than the bound, and
all of it together gets heavier by at most one item of that size and one more point.  This module has the forms of
instructions, the manipulations that every stack has, and the instructions on literals.
-/
namespace PushMachine

variable {ρ : Type}

namespace Machine

/-- Everything stays within `size`, and at most one item and one point are added. -/
structure Grows (size : Nat) (m m' : Machine ρ) : Prop where
  bounded : m'.Bounded size
  weight  : m'.weight ≤ m.weight + size + 1

namespace Grows

variable {size : Nat} {m m' : Machine ρ} {j k : Kind}

theorem refl (hm : m.Bounded size) : m.Grows size m := ⟨hm, by omega⟩

theorem congr (h : m.Grows size m') {m'' : Machine ρ} (hs : m''.toStacks = m'.toStacks)
    (hb : m''.bindings = m'.bindings) : m.Grows size m'' :=
  ⟨h.bounded.congr hs hb, by rw [weight_congr hs hb]; exact h.weight⟩

/-- What is added to a lighter machine is added to a heavier one. -/
theorem of_le {m₀ : Machine ρ} (h : m₀.Grows size m') (hw : m₀.weight ≤ m.weight) : m.Grows size m' :=
  ⟨h.bounded, by have := h.weight; omega⟩

theorem setStack (hm : m.Bounded size) {xs : Stack k.Item} (hxs : ∀ x ∈ xs, k.weight x ≤ size)
    (hw : k.weigh xs ≤ k.weigh (m.stack k) + size + 1) : m.Grows size (m.setStack k xs) :=
  ⟨hm.setStack hxs, by have := m.weight_setStack k xs; omega⟩

theorem push (hm : m.Bounded size) {x : k.Item} (hx : k.weight x ≤ size) :
    m.Grows size (m.setStack k (x :: m.stack k)) :=
  ⟨hm.push hx, by rw [weight_push]; omega⟩

/-- Popping an item first makes room. -/
theorem of_pop {x : k.Item} {xs : Stack k.Item} (hs : m.stack k = x :: xs) (h : (m.setStack k xs).Grows size m') :
    m.Grows size m' :=
  h.of_le (by have := weight_pop hs; omega)

theorem of_pop_two {x y : k.Item} {xs : Stack k.Item} (hs : m.stack k = x :: y :: xs)
    (h : (m.setStack k xs).Grows size m') : m.Grows size m' := by
  have hw := m.weight_setStack k xs
  rw [hs, Kind.weigh_cons, Kind.weigh_cons] at hw
  exact h.of_le (by omega)

theorem rearrange (hm : m.Bounded size) {xs : Stack k.Item} (hp : xs.Perm (m.stack k)) :
    m.Grows size (m.setStack k xs) :=
  setStack hm (fun x hx => hm.stack k x (hp.mem_iff.1 hx)) (by rw [Kind.weigh_perm hp]; omega)

theorem move (hm : m.Bounded size) {accepts : j.Item → Bool} {f : j.Item → k.Item}
    (hf : ∀ x ∈ m.stack j, accepts x = true → k.weight (f x) ≤ size) : m.Grows size (m.move j k accepts f) := by
  unfold Machine.move
  split
  · rename_i x rest hs
    split
    · rename_i hx
      exact of_pop hs (push (hm.pop hs) (hf x (by rw [hs]; exact List.mem_cons_self) hx))
    · exact refl hm
  · exact refl hm

theorem merge (hm : m.Bounded size) {accepts : j.Item → j.Item → Bool} {f : j.Item → j.Item → k.Item}
    (hf : ∀ a ∈ m.stack j, ∀ b ∈ m.stack j, accepts a b = true → k.weight (f a b) ≤ size) :
    m.Grows size (m.merge j k accepts f) := by
  unfold Machine.merge
  split
  · rename_i b a rest hs
    split
    · rename_i hab
      have hrest : (m.setStack j rest).Bounded size :=
        hm.setStack fun x hx => hm.tail hs x (List.mem_cons_of_mem a hx)
      exact of_pop_two hs (push hrest (hf a (by rw [hs]; simp) b (by rw [hs]; simp) hab))
    · exact refl hm
  · exact refl hm

theorem pushDrawn (hm : m.Bounded size) {x : k.Item} (hx : k.weight x ≤ size) (supply : Supply ρ) :
    m.Grows size (m.pushDrawn k x supply) :=
  (push hm hx).congr rfl rfl

end Grows

end Machine

open Machine (Grows)

/-! ## Stack manipulations -/

namespace StackOp

variable {size : Nat} {m : Machine ρ} {k : Kind}

theorem dup_grows (hm : m.Bounded size) : m.Grows size (m.setStack k (m.stack k).dup) := by
  rcases hs : m.stack k with _ | ⟨x, xs⟩
  · exact Grows.rearrange hm (by rw [hs]; exact .refl _)
  · have hd : Stack.dup (x :: xs) = x :: m.stack k := by rw [hs]; rfl
    rw [hd]
    exact Grows.push hm (hm.head hs)

/-- The depth makes room, and an action on what is left may add one item that was there. -/
theorem withDepth_grows (hm : m.Bounded size) {act : Int → Stack k.Item → Stack k.Item}
    (hact : ∀ d xs, xs ≠ [] → (act d xs).Perm xs ∨ ∃ x ∈ xs, act d xs = x :: xs) :
    m.Grows size (withDepth k act m) := by
  unfold withDepth
  split
  · exact .refl hm
  · rename_i depth rest hi
    dsimp only
    split
    · exact .refl hm
    · rename_i hne
      have hp : (m.setStack .integer rest).Bounded size := hm.pop (k := .integer) hi
      refine Grows.of_pop (k := .integer) hi ?_
      rcases hact depth _ hne with hperm | ⟨x, hx, he⟩
      · exact Grows.rearrange hp hperm
      · rw [he]
        exact Grows.push hp (hp.stack k x hx)

theorem defineTop_grows (hm : m.Bounded size) : m.Grows size (defineTop k m).machine := by
  unfold defineTop
  split
  · exact .refl hm
  · rename_i key names hn
    dsimp only
    split
    · exact .refl hm
    · rename_i x xs hx
      have hp : (m.setStack .name names).Bounded size := hm.pop (k := .name) hn
      have hx' : (m.setStack .name names).stack k = x :: xs := hx
      refine Grows.of_pop (k := .name) hn (Grows.of_pop hx' ?_)
      split
      · rename_i t ht
        have hpt : t.points ≤ size := by rw [Tree.points_ofItem ht]; exact hp.head hx'
        refine ⟨(hp.pop hx').define key hpt, ?_⟩
        exact Nat.le_trans (((m.setStack .name names).setStack k xs).weight_define key t) (by omega)
      · exact .refl (hp.pop hx')

/-- **What a stack manipulation adds.** -/
theorem run_grows (o : Options) (hs : 1 ≤ size) (hm : m.Bounded size) (op : StackOp) :
    m.Grows size (op.run o k m).machine := by
  cases op with
  | equal =>
    rw [run, equalTop_eq]
    exact Grows.merge (j := k) (k := .boolean) hm fun _ _ _ _ _ => hs
  | define => exact defineTop_grows hm
  | dup => exact dup_grows hm
  | flush => exact Grows.setStack hm (fun x hx => by cases hx) (by rw [Kind.weigh_nil]; omega)
  | pop =>
    rcases h : m.stack k with _ | ⟨x, xs⟩
    · rw [run, h]
      exact Grows.rearrange hm (by rw [h]; exact .refl _)
    · rw [run, h]
      exact .of_pop h (.refl (hm.pop h))
  | rot => exact Grows.rearrange hm (Stack.rot_perm _)
  | swap => exact Grows.rearrange hm (Stack.swap_perm _)
  | stackdepth =>
    simp only [run, Outcome.machine]
    split
    · exact Grows.push (k := .integer) hm hs
    · exact .refl hm
  | shove => exact withDepth_grows hm fun d xs _ => .inl (Stack.shoveTop_perm d xs)
  | yank => exact withDepth_grows hm fun d xs _ => .inl (Stack.yank_perm d xs)
  | yankdup => exact withDepth_grows hm fun d xs hne => .inr (Stack.exists_yankdup_eq d hne)

end StackOp

/-! ## Literals

A literal weighs one, so it is enough that a size is positive. -/

theorem FloatOp.ofInteger_grows {size : Nat} {m : Machine ρ} (hs : 1 ≤ size) (hm : m.Bounded size) :
    m.Grows size (ofInteger m).machine := by
  unfold ofInteger
  split
  · rename_i n rest hi
    refine Grows.of_pop (k := .integer) hi ?_
    split
    · exact Grows.push (k := .float) (hm.pop (k := .integer) hi) hs
    · exact .refl (hm.pop (k := .integer) hi)
  · exact .refl hm

section Literals

variable [RandomSource ρ] {size : Nat} {m : Machine ρ}

theorem IntegerOp.run_grows (o : Options) (hs : 1 ≤ size) (hm : m.Bounded size) (op : IntegerOp) :
    m.Grows size (op.run o m) := by
  cases op with
  | add | sub | mul | max | min => rw [run, binary_eq]; exact .merge hm fun _ _ _ _ _ => hs
  | div | mod => rw [run, divide_eq]; exact .merge hm fun _ _ _ _ _ => hs
  | less | greater => rw [run, compare_eq]; exact .merge hm fun _ _ _ _ _ => hs
  | fromBoolean => rw [run, ofBoolean_eq]; exact .move hm fun _ _ _ => hs
  | fromFloat => rw [run, ofFloat_eq]; exact .move hm fun _ _ _ => hs
  | rand =>
    obtain ⟨x, supply, he⟩ := exists_random_eq o m
    rw [run, he]
    exact Grows.pushDrawn (k := .integer) hm hs supply

theorem FloatOp.run_grows (o : Options) (hs : 1 ≤ size) (hm : m.Bounded size) (op : FloatOp) :
    m.Grows size (op.run o m).machine := by
  cases op with
  | add | sub | mul | max | min => rw [run, binary_eq]; exact .merge hm fun _ _ _ _ _ => hs
  | div | mod => rw [run, divide_eq]; exact .merge hm fun _ _ _ _ _ => hs
  | less | greater => rw [run, compare_eq]; exact .merge hm fun _ _ _ _ _ => hs
  | sin | cos | tan => rw [run, unary_eq]; exact .move hm fun _ _ _ => hs
  | fromBoolean => rw [run, ofBoolean_eq]; exact .move hm fun _ _ _ => hs
  | fromInteger => exact ofInteger_grows hs hm
  | rand =>
    obtain ⟨x, supply, he⟩ := exists_random_eq o m
    rw [run, he]
    exact Grows.pushDrawn (k := .float) hm hs supply

theorem BooleanOp.run_grows (hs : 1 ≤ size) (hm : m.Bounded size) (op : BooleanOp) : m.Grows size (op.run m) := by
  cases op with
  | and | or => rw [run, binary_eq]; exact .merge hm fun _ _ _ _ _ => hs
  | not => rw [run, negate_eq]; exact .move hm fun _ _ _ => hs
  | fromFloat => rw [run, ofFloat_eq]; exact .move hm fun _ _ _ => hs
  | fromInteger => rw [run, ofInteger_eq]; exact .move hm fun _ _ _ => hs
  | rand =>
    obtain ⟨x, supply, he⟩ := exists_random_eq m
    rw [run, he]
    exact Grows.pushDrawn (k := .boolean) hm hs supply

theorem NameOp.run_grows (hs : 1 ≤ size) (hm : m.Bounded size) (op : NameOp) : m.Grows size (op.run m).machine := by
  cases op with
  | quote => exact (Grows.refl hm).congr rfl rfl
  | rand =>
    rw [run, newName]
    split
    · exact (Grows.push (k := .name) hm hs).congr rfl rfl
    · exact (Grows.refl hm).congr rfl rfl
  | randBoundName =>
    by_cases hb : 1 ≤ m.bindings.size
    · obtain ⟨x, supply, he⟩ := exists_boundName_eq hb
      rw [run, he]
      exact Grows.pushDrawn (k := .name) hm hs supply
    · rw [run, boundName_of_size_zero hb]
      exact .refl hm

end Literals
end PushMachine
