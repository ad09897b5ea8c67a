import PushMachine.Interpreter.Instruction
import PushMachine.Machine.View
import PushMachine.Proofs.Footprint
import PushMachine.Proofs.Reference
/-!
# Interpreters and machines

`Machine.interpreter` is the interpreter in the state of a machine: it has the stacks that the options enable, and
forgets the others.  Every interpreter whose stacks are those of the options comes about like this
(`Interpreter.Fits.interpreter_machine`).  Each access to a stack that is there then does to the interpreter what it does
to the machine.
-/
namespace PushMachine

variable {ρ α β : Type}

/-! ## Kinds -/

namespace Options

theorem enables_exec (o : Options) : o.enables .exec = true := rfl

theorem mem_kinds {o : Options} {k : Kind} : k ∈ o.kinds ↔ o.enables k = true := by
  rw [kinds, List.mem_filter]
  exact and_iff_right k.mem_all

/-- The stacks are EXEC and those of the types that are enabled. -/
theorem mem_kinds_iff {o : Options} {k : Kind} : k ∈ o.kinds ↔ k = .exec ∨ o.typeEnabled k.label = true := by
  rw [mem_kinds]
  refine ⟨.inr, fun h => h.elim (fun he => ?_) id⟩
  rw [he]
  exact o.enables_exec

end Options

/-! ## From machines to interpreters and back -/

/-- The stacks that the options enable. -/
def Stacks.rack (o : Options) (s : Stacks) : Rack where
  integer := if o.enables .integer then some s.integer else none
  float   := if o.enables .float then some s.float else none
  boolean := if o.enables .boolean then some s.boolean else none
  name    := if o.enables .name then some s.name else none
  exec    := if o.enables .exec then some s.exec else none
  code    := if o.enables .code then some s.code else none

theorem Stacks.get?_rack (o : Options) (s : Stacks) (k : Kind) :
    (s.rack o).get? k = if o.enables k then some (s.get k) else none := by
  cases k <;> rfl

theorem Rack.ext_get? {r r' : Rack} (h : ∀ k, r.get? k = r'.get? k) : r = r' := by
  obtain ⟨_, _, _, _, _, _⟩ := r
  obtain ⟨_, _, _, _, _, _⟩ := r'
  congr
  · exact h .integer
  · exact h .float
  · exact h .boolean
  · exact h .name
  · exact h .exec
  · exact h .code

/-- Nothing where a stack is not there. -/
def Rack.stacks (r : Rack) : Stacks where
  integer := r.integer.getD []
  float   := r.float.getD []
  boolean := r.boolean.getD []
  name    := r.name.getD []
  exec    := r.exec.getD []
  code    := r.code.getD []

theorem Rack.get_stacks (r : Rack) (k : Kind) : r.stacks.get k = (r.get? k).getD [] := by
  cases k <;> rfl

/-- **The interpreter in the state of a machine.** -/
def Machine.interpreter (o : Options) (m : Machine ρ) : Interpreter ρ :=
  ⟨m.toStacks.rack o, m.bindings, m.quoting, m.steps, m.supply⟩

/-- The machine in the state of an interpreter. -/
def Interpreter.machine (it : Interpreter ρ) : Machine ρ := ⟨it.stacks, it.bindings, it.quoting, it.steps, it.supply⟩

/-- **The interpreter has the stacks that the options enable**, and no others. -/
def Interpreter.Fits (o : Options) (it : Interpreter ρ) : Prop := ∀ k, it.has k = true ↔ k ∈ o.kinds

/-- **The interpreter has the stacks that are asked for**, and they hold so much. -/
def Interpreter.Meets (it : Interpreter ρ) (needs : List (Kind × Nat)) : Prop :=
  ∀ p ∈ needs, it.stackOk p.1 p.2 = true

/-- Nothing is stored for a type that is not enabled. -/
def Machine.Vacant (o : Options) (m : Machine ρ) : Prop := ∀ k, o.enables k = false → m.stack k = []

namespace Interpreter

variable {it : Interpreter ρ} {k : Kind} {n : Nat} {needs : List (Kind × Nat)}

theorem meets_nil (it : Interpreter ρ) : it.Meets [] := List.forall_mem_nil _

theorem meets_cons : it.Meets ((k, n) :: needs) ↔ it.stackOk k n = true ∧ it.Meets needs := List.forall_mem_cons

theorem meets_singleton : it.Meets [(k, n)] ↔ it.stackOk k n = true := List.forall_mem_singleton

theorem meets_pair {j : Kind} {i : Nat} : it.Meets [(j, i), (k, n)] ↔ it.stackOk j i = true ∧ it.stackOk k n = true :=
  meets_cons.trans (and_congr_right fun _ => meets_singleton)

end Interpreter

section Both

variable {o : Options} {m : Machine ρ} {it : Interpreter ρ} {k : Kind}

theorem Machine.get?_interpreter (o : Options) (m : Machine ρ) (k : Kind) :
    (m.interpreter o).get? k = if o.enables k then some (m.stack k) else none :=
  m.toStacks.get?_rack o k

theorem Machine.has_interpreter (o : Options) (m : Machine ρ) (k : Kind) : (m.interpreter o).has k = o.enables k := by
  rw [Interpreter.has, m.get?_interpreter]
  split <;> simp_all

theorem Machine.fits_interpreter (o : Options) (m : Machine ρ) : (m.interpreter o).Fits o := fun k => by
  rw [m.has_interpreter, Options.mem_kinds]

theorem Interpreter.Fits.has_eq (h : it.Fits o) (k : Kind) : it.has k = o.enables k := by
  rw [Bool.eq_iff_iff, h k, Options.mem_kinds]

theorem Interpreter.stack_machine (it : Interpreter ρ) (k : Kind) : it.machine.stack k = (it.get? k).getD [] :=
  it.toRack.get_stacks k

theorem Interpreter.Fits.vacant (h : it.Fits o) : it.machine.Vacant o := fun k hk => by
  rw [← h.has_eq, Interpreter.has, Option.isSome_eq_false_iff, Option.isNone_iff_eq_none] at hk
  rw [it.stack_machine, hk]
  rfl

/-- **Every interpreter with these stacks is that of a machine.** -/
theorem Interpreter.Fits.interpreter_machine (h : it.Fits o) : it.machine.interpreter o = it := by
  have hrack : it.machine.toStacks.rack o = it.toRack := Rack.ext_get? fun k => by
    have hstack : it.machine.toStacks.get k = (it.get? k).getD [] := it.stack_machine k
    have hhas := h.has_eq k
    rw [Interpreter.has] at hhas
    rw [Stacks.get?_rack, hstack, ← hhas]
    cases it.get? k <;> rfl
  rw [Machine.interpreter, hrack]
  rfl

theorem Machine.Vacant.machine_interpreter (h : m.Vacant o) : (m.interpreter o).machine = m := by
  have hstacks : (m.interpreter o).stacks = m.toStacks := Stacks.eq_of_get fun k => by
    have hget : (m.interpreter o).toRack.get? k = _ := m.get?_interpreter o k
    rw [Rack.get_stacks, hget]
    split
    · rfl
    · rename_i hk
      exact (h k (Bool.not_eq_true _ ▸ hk)).symm
  rw [Interpreter.machine, hstacks]
  rfl

theorem Machine.put_interpreter (h : o.enables k = true) (m : Machine ρ) (xs : Stack k.Item) :
    (m.interpreter o).put k xs = (m.setStack k xs).interpreter o := by
  have hrack : (m.interpreter o).toRack.set k xs = (m.setStack k xs).toStacks.rack o := Rack.ext_get? fun j => by
    have hget : (m.interpreter o).toRack.get? j = _ := m.get?_interpreter o j
    rw [Stacks.get?_rack]
    by_cases hj : j = k
    · subst hj
      rw [Rack.get?_set_self, if_pos h]
      exact congrArg some (m.stack_setStack_self j xs).symm
    · rw [Rack.get?_set_of_ne _ hj, hget]
      exact congrArg (fun s => if o.enables j then some s else none) (m.stack_setStack_of_ne hj xs).symm
  rw [Interpreter.put, hrack]
  rfl

theorem Rack.get?_build (o : Options) (k : Kind) : (Rack.build o).get? k = if o.enables k then some [] else none := by
  have hfold : ∀ (ks : List Kind) (r : Rack), (ks.foldl (fun r k => if o.enables k then r.set k [] else r) r).get? k
      = if k ∈ ks ∧ o.enables k = true then some [] else r.get? k := by
    intro ks
    induction ks with
    | nil => simp
    | cons j ks ih =>
      intro r
      rw [List.foldl_cons, ih]
      by_cases hjk : k = j
      · subst hjk
        cases ho : o.enables k <;> simp
      · have hset : (if o.enables j then r.set j [] else r).get? k = r.get? k := by
          split
          · exact r.get?_set_of_ne hjk []
          · rfl
        simp [hjk, hset]
  rw [build, hfold]
  have hnone : ({} : Rack).get? k = none := by cases k <;> rfl
  simp [k.mem_all, hnone]

/-- **A new interpreter is that of a machine with nothing on it.** -/
theorem Interpreter.build_eq (o : Options) (source : ρ) : build o source = (Machine.initial source).interpreter o := by
  have hrack : Rack.build o = Stacks.rack o {} := Rack.ext_get? fun k => by
    rw [Rack.get?_build, Stacks.get?_rack]
    cases k <;> rfl
  rw [build, hrack]
  rfl

theorem Machine.stackOk_iff {n : Nat} :
    (m.interpreter o).stackOk k n = true ↔ o.enables k = true ∧ n ≤ (m.stack k).length := by
  rw [Interpreter.stackOk, m.get?_interpreter]
  cases o.enables k <;> simp

theorem Machine.stackOk_zero (h : o.enables k = true) : (m.interpreter o).stackOk k (0 : Nat) = true :=
  stackOk_iff.2 ⟨h, Nat.zero_le _⟩

/-- A stack that holds something is there. -/
theorem Machine.Vacant.stackOk (h : m.Vacant o) {n : Nat} (hn : 1 ≤ n) (hl : n ≤ (m.stack k).length) :
    (m.interpreter o).stackOk k n = true := by
  refine stackOk_iff.2 ⟨?_, hl⟩
  cases he : o.enables k with
  | true => rfl
  | false =>
    rw [h k he, List.length_nil] at hl
    omega

end Both

/-! ## Accesses -/

/-- What an outcome is for an interpreter. -/
def Outcome.result {ε : Type} (halt : ε → Halt) (o : Options) : Outcome ε ρ → Except Halt Unit × Interpreter ρ
  | .next m       => (.ok (), m.interpreter o)
  | .stop cause m => (.error (halt cause), m.interpreter o)

namespace Effect

variable {o : Options} {m : Machine ρ} {j k : Kind}

/-! ### Stacks that are there -/

theorem items_interpreter (h : o.enables k = true) (m : Machine ρ) :
    items k (m.interpreter o) = (.ok (m.stack k), m.interpreter o) := by
  rw [items, m.get?_interpreter, if_pos h]

theorem update_interpreter (h : o.enables k = true) (m : Machine ρ) (f : Stack k.Item → Stack k.Item) :
    update k f (m.interpreter o) = (.ok (), (m.setStack k (f (m.stack k))).interpreter o) := by
  rw [update, m.get?_interpreter, if_pos h, ← Machine.put_interpreter h]

theorem give_interpreter (h : o.enables k = true) (m : Machine ρ) (x : k.Item) :
    give k x (m.interpreter o) = (.ok (), (m.setStack k (x :: m.stack k)).interpreter o) :=
  update_interpreter h m (x :: ·)

theorem pick_interpreter (h : o.enables k = true) {n : Nat} {x : k.Item} (hx : (m.stack k)[n]? = some x) :
    pick k n (m.interpreter o) = (.ok x, m.interpreter o) := by
  rw [pick, bind_ok (items_interpreter h m), hx]
  rfl

theorem peek_interpreter (h : o.enables k = true) {x : k.Item} {xs : Stack k.Item} (hx : m.stack k = x :: xs) :
    peek k (m.interpreter o) = (.ok x, m.interpreter o) :=
  pick_interpreter h (by rw [hx]; rfl)

theorem take_interpreter (h : o.enables k = true) {x : k.Item} {xs : Stack k.Item} (hx : m.stack k = x :: xs) :
    take k (m.interpreter o) = (.ok x, (m.setStack k xs).interpreter o) := by
  rw [take, bind_ok (peek_interpreter h hx), bind_ok (update_interpreter h m List.tail), hx]
  rfl

theorem offer_interpreter (m : Machine ρ) (x : k.Item) :
    offer k x (m.interpreter o) = (.ok (), (m.pushEnabled o k x).interpreter o) := by
  rw [offer, m.has_interpreter, Machine.pushEnabled]
  split
  · rename_i h
    exact give_interpreter h m x
  · rfl

/-! ### The rest of the state -/

theorem generate_interpreter_ok {g : Generator ρ α} {a : α} {supply : Supply ρ} (h : g m.supply = (.ok a, supply)) :
    generate g (m.interpreter o) = (.ok a, { m with supply := supply }.interpreter o) := by
  have hg : g (m.interpreter o).supply = (.ok a, supply) := h
  rw [generate, hg]
  rfl

theorem generate_interpreter_error {g : Generator ρ α} {f : Fault} {supply : Supply ρ}
    (h : g m.supply = (.error f, supply)) :
    generate g (m.interpreter o) = (.error (.fault f), { m with supply := supply }.interpreter o) := by
  have hg : g (m.interpreter o).supply = (.error f, supply) := h
  rw [generate, hg]
  rfl

/-- Whether a stack is there. -/
theorem read_has_interpreter (o : Options) (m : Machine ρ) (k : Kind) :
    read (·.has k) (m.interpreter o) = (.ok (o.enables k), m.interpreter o) :=
  congrArg (fun b => (Except.ok b, m.interpreter o)) (m.has_interpreter o k)

theorem ofExcept_ok {e : Except Fault α} {a : α} (h : e = .ok a) (it : Interpreter ρ) : ofExcept e it = (.ok a, it) := by
  subst h; rfl

theorem ofExcept_error {e : Except Fault α} {f : Fault} (h : e = .error f) (it : Interpreter ρ) :
    (ofExcept e : Effect ρ α) it = (.error (.fault f), it) := by
  subst h; rfl

/-! ### Guards -/

theorem guarded_of_meets {needs : List (Kind × Nat)} {it : Interpreter ρ} (h : it.Meets needs) (act : Effect ρ Unit) :
    guarded needs act it = act it :=
  if_pos (List.all_eq_true.2 h)

theorem guarded_of_not_meets {needs : List (Kind × Nat)} {it : Interpreter ρ} (h : ¬ it.Meets needs)
    (act : Effect ρ Unit) : guarded needs act it = (.ok (), it) :=
  if_neg fun hall => h (List.all_eq_true.1 hall)

/-! ### Forms -/

theorem convert_interpreter (hj : (m.interpreter o).stackOk j (1 : Nat) = true) (hk : o.enables k = true)
    (f : j.Item → k.Item) :
    convert j k f (m.interpreter o) = (.ok (), (m.move j k (fun _ => true) f).interpreter o) := by
  obtain ⟨he, hl⟩ := Machine.stackOk_iff.1 hj
  obtain ⟨x, xs, hx⟩ := List.exists_cons_of_length_pos hl
  rw [convert, bind_ok (take_interpreter he hx), give_interpreter hk, Machine.move_of_ready f hx rfl]

theorem combine_interpreter (hj : (m.interpreter o).stackOk j (2 : Nat) = true) (hk : o.enables k = true)
    (f : j.Item → j.Item → k.Item) :
    combine j k f (m.interpreter o) = (.ok (), (m.merge j k (fun _ _ => true) f).interpreter o) := by
  obtain ⟨he, hl⟩ := Machine.stackOk_iff.1 hj
  obtain ⟨b, xs, hb⟩ := List.exists_cons_of_length_pos (Nat.lt_of_succ_lt hl)
  obtain ⟨a, rest, rfl⟩ : ∃ a rest, xs = a :: rest := by
    rw [hb, List.length_cons] at hl
    exact List.exists_cons_of_length_pos (Nat.lt_of_succ_lt_succ hl)
  have hpopped : (m.setStack j (a :: rest)).stack j = a :: rest := m.stack_setStack_self j _
  have hrest : (m.setStack j (a :: rest)).setStack j rest = m.setStack j rest := m.setStack_setStack j _ _
  rw [combine, bind_ok (take_interpreter he hb), bind_ok (take_interpreter he hpopped), hrest, give_interpreter hk,
    Machine.merge_of_ready f hb rfl]

end Effect
end PushMachine
