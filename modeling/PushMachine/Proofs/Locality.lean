import PushMachine.Proofs.Footprint
import PushMachine.Proofs.Precondition.Code
import PushMachine.Proofs.RandomLeaves
import PushMachine.Random.Twister
/-!
# Instructions act on the tops of stacks

A machine can be put on top of other stacks, kind by kind (`Machine.above`).  An instruction that is ready finds all
that it takes above them, so it does there what it does without them, and leaves them as they are.  This holds of the
forms of instructions first (`move_above`, `merge_above`, `pushDrawn_above`), and of all instructions but those that
empty a stack, count it or go to a depth of it (`Instruction.run_above`).
-/
namespace PushMachine

variable {ρ : Type}

/-- Each stack on top of another of its kind. -/
def Stacks.above (s below : Stacks) : Stacks where
  integer := s.integer ++ below.integer
  float   := s.float ++ below.float
  boolean := s.boolean ++ below.boolean
  name    := s.name ++ below.name
  exec    := s.exec ++ below.exec
  code    := s.code ++ below.code

/-- **The machine with more items beneath those of its stacks.** -/
def Machine.above (m : Machine ρ) (below : Stacks) : Machine ρ := { m with toStacks := m.toStacks.above below }

namespace Instruction

/-- The instructions that reach down a whole stack. -/
def reachesDown : Instruction → Bool
  | .stack _ .flush | .stack _ .stackdepth | .stack _ .shove | .stack _ .yank | .stack _ .yankdup => true
  | _ => false

/-- The instructions that generate names. -/
def mints : Instruction → Bool
  | .name .rand | .code .rand => true
  | _                         => false

theorem run_minted [RandomSource ρ] {i : Instruction} (hi : i.mints = false) (o : Options) (m : Machine ρ) :
    (i.run o m).machine.supply.minted = m.supply.minted := by
  rcases i.run_supply_cases o m with he | ⟨rfl, -⟩ | ⟨rfl, -⟩
  · exact he
  · cases hi
  · cases hi

end Instruction

/-! ## The forms -/

namespace Machine

variable {j k : Kind} {m : Machine ρ} (below : Stacks)

theorem stack_above (m : Machine ρ) (k : Kind) : (m.above below).stack k = m.stack k ++ below.get k := by
  cases k <;> rfl

/-- Putting a stack back is the same above other items. -/
theorem above_setStack (m : Machine ρ) (k : Kind) (xs : Stack k.Item) :
    (m.setStack k xs).above below = (m.above below).setStack k (xs ++ below.get k) := by
  cases k <;> rfl

theorem stack_above_of_cons {x : k.Item} {xs : Stack k.Item} (h : m.stack k = x :: xs) :
    (m.above below).stack k = x :: (xs ++ below.get k) := by
  rw [stack_above, h, List.cons_append]

/-- Pushing is the same above other items. -/
theorem above_push (m : Machine ρ) (k : Kind) (x : k.Item) :
    (m.setStack k (x :: m.stack k)).above below = (m.above below).setStack k (x :: (m.above below).stack k) := by
  rw [above_setStack, stack_above, List.cons_append]

theorem move_above {accepts : j.Item → Bool} (f : j.Item → k.Item) (h : m.MoveReady j accepts) :
    (m.above below).move j k accepts f = (m.move j k accepts f).above below := by
  obtain ⟨x, hx, ha⟩ := h
  obtain ⟨rest, hs⟩ := List.head?_eq_some_iff.1 (Option.mem_def.1 hx)
  rw [move_of_ready f hs ha, move_of_ready f (stack_above_of_cons below hs) ha, above_push, above_setStack]

theorem merge_above {accepts : j.Item → j.Item → Bool} (f : j.Item → j.Item → k.Item) (h : m.MergeReady j accepts) :
    (m.above below).merge j k accepts f = (m.merge j k accepts f).above below := by
  obtain ⟨b, a, rest, hs, hab⟩ := h
  have habove : (m.above below).stack j = b :: a :: (rest ++ below.get j) := by rw [stack_above, hs]; rfl
  rw [merge_of_ready f hs hab, merge_of_ready f habove hab, above_push, above_setStack]

theorem pushDrawn_above (m : Machine ρ) (k : Kind) (x : k.Item) (supply : Supply ρ) :
    (m.above below).pushDrawn k x supply = (m.pushDrawn k x supply).above below := by
  cases k <;> rfl

end Machine

open Machine (move_above merge_above pushDrawn_above above_setStack stack_above stack_above_of_cons above_push
  moveReady_const_iff mergeReady_const_iff mergeReady_top_iff)

section Above

variable (o : Options) {m : Machine ρ} (below : Stacks)

/-! ## Stack manipulations -/

namespace StackOp

variable {k : Kind}

theorem defineTop_above (hk : k ≠ .name) (hn : 1 ≤ m.name.length) (hx : 1 ≤ (m.stack k).length) :
    defineTop k (m.above below) = (defineTop k m).map (·.above below) := by
  obtain ⟨key, names, hnames⟩ := List.exists_cons_of_length_pos hn
  obtain ⟨x, xs, hstack⟩ := List.exists_cons_of_length_pos hx
  have habove : (m.above below).name = key :: (names ++ below.name) := stack_above_of_cons (k := .name) below hnames
  have hp : ({ m.above below with name := names ++ below.name } : Machine ρ) = (m.setStack .name names).above below :=
    (above_setStack below m .name names).symm
  have hq : ({ m with name := names } : Machine ρ) = m.setStack .name names := rfl
  have hpopped : (m.setStack .name names).stack k = x :: xs := (m.stack_setStack_of_ne hk names).trans hstack
  unfold defineTop
  rw [habove, hnames]
  dsimp only
  rw [hp, hq, hpopped, stack_above_of_cons below hpopped]
  dsimp only
  rw [← above_setStack]
  cases Tree.ofItem k x <;> rfl

/-- What a manipulation does to the stack alone it does above other items. -/
theorem rearrange_above {f : Stack k.Item → Stack k.Item}
    (hf : f (m.stack k ++ below.get k) = f (m.stack k) ++ below.get k) :
    (m.above below).setStack k (f ((m.above below).stack k)) = (m.setStack k (f (m.stack k))).above below := by
  rw [above_setStack, stack_above, hf]

theorem run_above {op : StackOp} (hi : (Instruction.stack k op).reachesDown = false) (hd : op = .define → k ≠ .name)
    (hr : op.Ready o k m) : op.run o k (m.above below) = (op.run o k m).map (·.above below) := by
  cases op with
  | equal =>
    simp only [run, equalTop_eq]
    exact congrArg Outcome.next (merge_above below _ ((m.mergeReady_const_iff _).2 hr))
  | define => exact defineTop_above below (hd rfl) hr.1 hr.2
  | dup =>
    refine congrArg Outcome.next (rearrange_above below (f := Stack.dup) ?_)
    obtain ⟨x, xs, hx⟩ := List.exists_cons_of_length_pos hr
    rw [hx]
    rfl
  | pop =>
    refine congrArg Outcome.next (rearrange_above below (f := List.tail) ?_)
    obtain ⟨x, xs, hx⟩ := List.exists_cons_of_length_pos hr
    rw [hx]
    rfl
  | swap =>
    refine congrArg Outcome.next (rearrange_above below (f := Stack.swap) ?_)
    rcases hs : m.stack k with _ | ⟨x, _ | ⟨y, xs⟩⟩
    · exact absurd hr (by rw [Ready, hs]; simp)
    · exact absurd hr (by rw [Ready, hs]; simp)
    · rfl
  | rot =>
    refine congrArg Outcome.next (rearrange_above below (f := Stack.rot) ?_)
    rcases hs : m.stack k with _ | ⟨x, _ | ⟨y, _ | ⟨z, xs⟩⟩⟩
    · exact absurd hr (by rw [Ready, hs]; simp)
    · exact absurd hr (by rw [Ready, hs]; simp)
    · exact absurd hr (by rw [Ready, hs]; simp)
    · rfl
  | flush | stackdepth | shove | yank | yankdup => cases hi

end StackOp

/-! ## Literals -/

theorem FloatOp.ofInteger_above (h : 1 ≤ m.integer.length) :
    ofInteger (m.above below) = (ofInteger m).map (·.above below) := by
  obtain ⟨n, rest, hi⟩ := List.exists_cons_of_length_pos h
  have habove : (m.above below).integer = n :: (rest ++ below.integer) := stack_above_of_cons (k := .integer) below hi
  unfold ofInteger
  rw [habove, hi]
  dsimp only
  cases Number.floatOfInt? n <;> rfl

section Literals

variable [RandomSource ρ]

theorem IntegerOp.run_above {op : IntegerOp} (hr : op.Ready o m) :
    op.run o (m.above below) = (op.run o m).above below := by
  cases op with
  | add | sub | mul | max | min =>
    simp only [run, binary_eq]
    exact merge_above below _ ((m.mergeReady_const_iff _).2 ⟨hr, rfl⟩)
  | div | mod =>
    simp only [run, divide_eq]
    refine merge_above below _ ((mergeReady_top_iff (j := .integer) m (· != 0)).2 ?_)
    simp only [bne_iff_ne]
    exact hr
  | less | greater =>
    simp only [run, compare_eq]
    exact merge_above below _ ((m.mergeReady_const_iff _).2 hr)
  | fromBoolean =>
    simp only [run, ofBoolean_eq]
    exact move_above below _ ((m.moveReady_const_iff _).2 ⟨hr, rfl⟩)
  | fromFloat =>
    simp only [run, ofFloat_eq]
    exact move_above below _ hr
  | rand =>
    simp only [run, random]
    exact pushDrawn_above below m .integer _ _

theorem FloatOp.run_above {op : FloatOp} (hr : op.Ready o m) :
    op.run o (m.above below) = (op.run o m).map (·.above below) := by
  cases op with
  | add | sub | mul | max | min =>
    simp only [run, binary_eq]
    exact congrArg Outcome.next (merge_above below _ ((m.mergeReady_const_iff _).2 ⟨hr, rfl⟩))
  | div | mod =>
    simp only [run, divide_eq]
    refine congrArg Outcome.next (merge_above below _ ?_)
    refine (mergeReady_top_iff (j := .float) m (fun x => !(x == 0.0))).2 ?_
    simp only [Bool.not_eq_true']
    exact hr
  | less | greater =>
    simp only [run, compare_eq]
    exact congrArg Outcome.next (merge_above below _ ((m.mergeReady_const_iff _).2 hr))
  | sin | cos | tan =>
    simp only [run, unary_eq]
    exact congrArg Outcome.next (move_above below _ hr)
  | fromBoolean =>
    simp only [run, ofBoolean_eq]
    exact congrArg Outcome.next (move_above below _ ((m.moveReady_const_iff _).2 ⟨hr, rfl⟩))
  | fromInteger => exact ofInteger_above below hr
  | rand =>
    simp only [run, random]
    exact congrArg Outcome.next (pushDrawn_above below m .float _ _)

theorem BooleanOp.run_above {op : BooleanOp} (hr : op.Ready m) : op.run (m.above below) = (op.run m).above below := by
  cases op with
  | and | or =>
    simp only [run, binary_eq]
    exact merge_above below _ ((m.mergeReady_const_iff _).2 ⟨hr, rfl⟩)
  | not =>
    simp only [run, negate_eq]
    exact move_above below _ ((m.moveReady_const_iff _).2 ⟨hr, rfl⟩)
  | fromFloat =>
    simp only [run, ofFloat_eq]
    exact move_above below _ ((m.moveReady_const_iff _).2 ⟨hr, rfl⟩)
  | fromInteger =>
    simp only [run, ofInteger_eq]
    exact move_above below _ ((m.moveReady_const_iff _).2 ⟨hr, rfl⟩)
  | rand =>
    simp only [run, random]
    exact pushDrawn_above below m .boolean _ _

theorem NameOp.run_above (m : Machine ρ) (op : NameOp) : op.run (m.above below) = (op.run m).map (·.above below) := by
  cases op with
  | quote => rfl
  | rand =>
    have hsupply : (m.above below).supply = m.supply := rfl
    simp only [run, newName, hsupply]
    rcases Supply.newName m.supply with ⟨_ | name, supply⟩
    · rfl
    · exact congrArg Outcome.next (pushDrawn_above below m .name name supply)
  | randBoundName =>
    have hbindings : (m.above below).bindings = m.bindings := rfl
    simp only [run, boundName, hbindings]
    rcases m.bindings.names with _ | ⟨name, names⟩
    · rfl
    · exact congrArg Outcome.next (pushDrawn_above below m .name _ _)

end Literals

/-! ## Code -/

namespace ExecOp

theorem range_above (hr : doRange.Ready o m) : range o (m.above below) = (range o m).map (·.above below) := by
  obtain ⟨last, current, integers, hi, body, hbody, hready⟩ := hr
  obtain ⟨rest, he⟩ := List.head?_eq_some_iff.1 (Option.mem_def.1 hbody)
  simp only [range, hi, he, Machine.above, Stacks.above, List.cons_append]
  by_cases hc : current = last
  · simp [hc, Outcome.map]
  · have hfits := hready.resolve_left hc
    unfold nearer at hfits
    cases hloop : buildLoop (if current < last then current + 1 else current - 1) last body with
    | error e => simp [hc, Outcome.map, hi, he]
    | ok loop => simp [hc, hfits loop hloop, Outcome.map]

theorem countWith_above (wrapBody : Tree → Tree) (hr : CountReady o wrapBody m) :
    countWith o wrapBody (m.above below) = (countWith o wrapBody m).map (·.above below) := by
  obtain ⟨n, hn, body, hbody, hpos, hfits⟩ := hr
  obtain ⟨integers, hi⟩ := List.head?_eq_some_iff.1 (Option.mem_def.1 hn)
  obtain ⟨rest, he⟩ := List.head?_eq_some_iff.1 (Option.mem_def.1 hbody)
  simp only [countWith, hi, he, Machine.above, Stacks.above, List.cons_append, if_neg (Int.not_lt.2 hpos)]
  cases hloop : buildLoop 0 (n - 1) (wrapBody body) with
  | error e => simp [Outcome.map, hi, he]
  | ok loop => simp [hfits loop hloop, Outcome.map]

theorem run_above {op : ExecOp} (hr : op.Ready o m) : op.run o (m.above below) = (op.run o m).map (·.above below) := by
  cases op with
  | choose =>
    obtain ⟨c, booleans, hb⟩ := List.exists_cons_of_length_pos hr.1
    obtain ⟨b, a, rest, he, -⟩ := (mergeReady_const_iff (j := .exec) m true).2 ⟨hr.2, rfl⟩
    replace he : m.exec = b :: a :: rest := he
    simp [run, choice, hb, he, Machine.above, Stacks.above, Outcome.map]
  | k =>
    simp only [run, constant_eq]
    exact congrArg Outcome.next (merge_above below _ ((m.mergeReady_const_iff _).2 ⟨hr, rfl⟩))
  | s =>
    obtain ⟨a, b, c, rest, he, hf⟩ := hr
    simp [run, distribute, he, hf, Machine.above, Stacks.above, Outcome.map]
  | y =>
    obtain ⟨a, ha, hf⟩ := hr
    obtain ⟨rest, he⟩ := List.head?_eq_some_iff.1 (Option.mem_def.1 ha)
    simp [run, recur, he, hf, Machine.above, Stacks.above, Outcome.map]
  | doRange => exact range_above o below hr
  | doCount | doTimes => exact countWith_above o below _ hr

end ExecOp

namespace CodeOp

theorem pickItem_above (hi : 1 ≤ m.integer.length) (hc : 1 ≤ m.code.length) :
    pickItem (m.above below) = (pickItem m).above below := by
  obtain ⟨n, integers, hi⟩ := List.exists_cons_of_length_pos hi
  obtain ⟨top, rest, hc⟩ := List.exists_cons_of_length_pos hc
  simp [pickItem, hi, hc, Machine.above, Stacks.above]

theorem pushDefinition_above (hr : ∃ name ∈ m.name.head?, m.bindings.contains name = true) :
    pushDefinition (m.above below) = (pushDefinition m).above below := by
  obtain ⟨name, hname, hb⟩ := hr
  obtain ⟨names, hn⟩ := List.head?_eq_some_iff.1 (Option.mem_def.1 hname)
  obtain ⟨t, ht⟩ := Option.isSome_iff_exists.1 hb
  simp [pushDefinition, hn, ht, Machine.above, Stacks.above]

theorem executeTop_above (hr : 1 ≤ m.code.length) : executeTop (m.above below) = (executeTop m).above below := by
  obtain ⟨top, rest, hc⟩ := List.exists_cons_of_length_pos hr
  simp [executeTop, hc, Machine.above, Stacks.above]

theorem choice_above (hb : 1 ≤ m.boolean.length) (hc : 2 ≤ m.code.length) :
    choice (m.above below) = (choice m).above below := by
  obtain ⟨c, booleans, hb⟩ := List.exists_cons_of_length_pos hb
  obtain ⟨top, second, rest, hc, -⟩ := (mergeReady_const_iff (j := .code) m true).2 ⟨hc, rfl⟩
  replace hc : m.code = top :: second :: rest := hc
  simp [choice, hb, hc, Machine.above, Stacks.above]

theorem ofStack_above {k : Kind} (hr : 1 ≤ (m.stack k).length) :
    ofStack k (m.above below) = (ofStack k m).map (·.above below) := by
  obtain ⟨x, xs, hx⟩ := List.exists_cons_of_length_pos hr
  unfold ofStack
  rw [stack_above_of_cons below hx, hx]
  dsimp only
  rw [← above_setStack]
  cases Tree.ofItem k x <;> rfl

variable [RandomSource ρ]

theorem random_above (hr : ∃ n ∈ m.integer.head?, 1 ≤ randomLimit o n) :
    random o (m.above below) = (random o m).map (·.above below) := by
  obtain ⟨n, hn, hlimit⟩ := hr
  obtain ⟨integers, hi⟩ := List.head?_eq_some_iff.1 (Option.mem_def.1 hn)
  have habove : (m.above below).integer = n :: (integers ++ below.integer) :=
    stack_above_of_cons (k := .integer) below hi
  have hsupply : (m.above below).supply = m.supply := rfl
  unfold random
  rw [habove, hi, hsupply]
  dsimp only
  rw [if_neg (by omega), if_neg (by omega)]
  generalize RandomCode.upTo o _ m.supply = made
  rcases made with ⟨e | t, supply⟩ <;> rfl

theorem run_above {op : CodeOp} (hr : op.Ready o m) : op.run o (m.above below) = (op.run o m).map (·.above below) := by
  cases op with
  | append | cons | list =>
    simp only [run, binary_eq]
    exact congrArg Outcome.next (merge_above below _ hr)
  | car | cdr =>
    simp only [run, unary_eq]
    exact congrArg Outcome.next (move_above below _ ((m.moveReady_const_iff _).2 ⟨hr, rfl⟩))
  | atom | null =>
    simp only [run, test_eq]
    exact congrArg Outcome.next (move_above below _ ((m.moveReady_const_iff _).2 hr))
  | member =>
    simp only [run, testMember_eq]
    exact congrArg Outcome.next (merge_above below _ ((m.mergeReady_const_iff _).2 hr))
  | length | size =>
    simp only [run, measure_eq]
    exact congrArg Outcome.next (move_above below _ ((m.moveReady_const_iff _).2 hr))
  | nth => exact congrArg Outcome.next (pickItem_above below hr.1 hr.2)
  | definition => exact congrArg Outcome.next (pushDefinition_above below hr)
  | doKeep => exact congrArg Outcome.next (executeTop_above below hr)
  | doPop =>
    simp only [run, executePopped_eq]
    exact congrArg Outcome.next (move_above below _ ((m.moveReady_const_iff _).2 ⟨hr, rfl⟩))
  | choose => exact congrArg Outcome.next (choice_above below hr.1 hr.2)
  | quote =>
    simp only [run, quoteNext_eq]
    exact congrArg Outcome.next (move_above below _ hr)
  | noop => rfl
  | fromBoolean | fromFloat | fromInteger | fromName => exact ofStack_above below hr
  | rand => exact random_above o below hr

end CodeOp

/-! ## All instructions -/

/-- **Above other items a ready instruction does what it does without them.** -/
theorem Instruction.run_above [RandomSource ρ] {i : Instruction} (hall : i ∈ all) (hi : i.reachesDown = false)
    (hr : i.Ready o m) : i.run o (m.above below) = (i.run o m).map (·.above below) := by
  cases i with
  | stack k op => exact op.run_above o below hi (fun hd => ne_name_of_define (hd ▸ hall)) hr
  | integer op => exact congrArg Outcome.next (op.run_above o below hr)
  | float op   => exact op.run_above o below hr
  | boolean op => exact congrArg Outcome.next (op.run_above below hr)
  | name op    => exact op.run_above below m
  | exec op    => exact op.run_above o below hr
  | code op    => exact op.run_above o below hr

end Above

namespace Instruction

/-- **An instruction acts on the tops of stacks only.** -/
structure Local (o : Options) (m : Machine ρ) [RandomSource ρ] (i : Instruction) : Prop where
  /-- More items beneath those of the stacks change nothing, and stay as they are. -/
  above  : ∀ below, i.run o (m.above below) = (i.run o m).map (·.above below)
  /-- Beside the stacks it changes what its kind is for; the count of steps is not among it. -/
  frame  : i.Frame m (i.run o m).machine
  minted : i.mints = false → (i.run o m).machine.supply.minted = m.supply.minted

theorem local_of_ready [RandomSource ρ] (o : Options) (m : Machine ρ) {i : Instruction} (hall : i ∈ all)
    (hi : i.reachesDown = false) (hr : i.Ready o m) : i.Local o m where
  above below := run_above o below hall hi hr
  frame := i.run_frame o m
  minted h := run_minted h o m

/-- A turn of a loop takes an integer and puts two items on EXEC, above one more integer and one more item. -/
theorem local_of_ready_turn :
    let m := { Machine.initial (Twister.ofSeed 0) with integer := [3, 1], exec := [.atom "a"] }
    let below : Stacks := { integer := [7], exec := [.atom "b"] }
    (Instruction.exec .doRange).Ready {} m ∧ (Instruction.exec .doRange).run {} (m.above below) =
      .next { m with integer := [1, 7], exec := [.atom "a", ExecOp.rangeLoop 2 3 (.atom "a"), .atom "b"] } := by
  have hloop : ExecOp.buildLoop 2 3 (.atom "a") = .ok (ExecOp.rangeLoop 2 3 (.atom "a")) := rfl
  have hfits : ({} : Options).fits (ExecOp.rangeLoop 2 3 (.atom "a")) = true := by
    simp [Options.fits, ExecOp.rangeLoop, ExecOp.rangeToken, Tree.integer]
  have hready : (Instruction.exec .doRange).Ready {}
      { Machine.initial (Twister.ofSeed 0) with integer := [3, 1], exec := [.atom "a"] } :=
    ⟨3, 1, [], rfl, .atom "a", rfl, .inr fun _ hbuilt => by cases ExecOp.eq_of_buildLoop hbuilt; exact hfits⟩
  refine ⟨hready, ((local_of_ready {} _ (mem_all_iff.2 (by decide)) rfl hready).above _).trans ?_⟩
  simp [run, ExecOp.run, ExecOp.range, hloop, hfits, Outcome.map, Machine.above, Stacks.above, Machine.initial]

end Instruction
end PushMachine
