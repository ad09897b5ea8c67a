import PushMachine.Proofs.Precondition.Literal
import PushMachine.Proofs.Reference
import PushMachine.Random.Twister
/-!
# All or nothing

EXEC and CODE instructions build trees, and test what they would build before they take anything; a loop that would be
too large, or an item that does not fit, is not even half taken.  With them every instruction is covered: if it is not
ready it leaves the whole machine as it is, and if it is ready it does not, unless it is one of the few that can give
back exactly what they took (`Instruction.all_or_nothing`).
-/
namespace PushMachine

open Machine (ne_of_depth next_ne_of_depth next_inj_iff merge_eq_self_iff move_eq_self_iff mergeReady_const_iff moveReady_const_iff)

variable {ρ : Type}

/-! ## EXEC -/

namespace ExecOp

theorem choice_eq_self_iff (m : Machine ρ) : choice m = m ↔ ¬ (1 ≤ m.boolean.length ∧ 2 ≤ m.exec.length) := by
  rcases hb : m.boolean with _ | ⟨c, booleans⟩
  · simp [choice, hb]
  · rcases he : m.exec with _ | ⟨a, _ | ⟨b, rest⟩⟩
    · simp [choice, hb, he]
    · simp [choice, hb, he]
    · simp only [choice, hb, he]
      refine iff_of_false (ne_of_depth .exec ?_) (by simp)
      rw [show m.stack .exec = a :: b :: rest from he]
      exact Nat.succ_ne_self _ ∘ Eq.symm

theorem constant_eq_self_iff (m : Machine ρ) : constant m = m ↔ ¬ 2 ≤ m.exec.length := by
  rw [constant_eq, merge_eq_self_iff, mergeReady_const_iff]
  exact not_congr (and_iff_left rfl)

/-- The depth stays the same, but the third item is replaced by a larger one. -/
theorem distribute_eq_self_iff (o : Options) (m : Machine ρ) :
    distribute o m = m ↔ ¬ ∃ a b c rest, m.exec = a :: b :: c :: rest ∧ o.fits (.list [b, c]) = true := by
  constructor
  · rintro h ⟨a, b, c, rest, he, hf⟩
    have hx : a :: c :: .list [b, c] :: rest = m.exec := by
      rw [← congrArg (·.exec) h]
      simp only [distribute, he, hf, if_true]
    rw [he] at hx
    obtain ⟨-, -, hc, -⟩ : a = a ∧ c = b ∧ Tree.list [b, c] = c ∧ rest = rest := by simpa using hx
    have hp := congrArg Tree.points hc
    simp only [Tree.points_list, Tree.pointsAll_cons, Tree.pointsAll_nil] at hp
    omega
  · intro h
    unfold distribute
    split
    · rename_i a b c rest he
      exact if_neg fun hf => h ⟨a, b, c, rest, he, hf⟩
    · rfl

theorem recur_eq_self_iff (o : Options) (m : Machine ρ) :
    recur o m = m ↔ ¬ ∃ a ∈ m.exec.head?, o.fits (.list [recurToken, a]) = true := by
  rcases he : m.exec with _ | ⟨a, rest⟩
  · simp [recur, he]
  · cases hf : o.fits (.list [recurToken, a]) with
    | false => simp [recur, he, hf]
    | true =>
      simp only [recur, he, hf, if_true]
      refine iff_of_false (ne_of_depth .exec ?_) (by simp [hf])
      rw [show m.stack .exec = a :: rest from he]
      exact Nat.succ_ne_self _

/-- A loop that does not fit is one that can be built. -/
theorem exists_unfit {o : Options} {current last : Int} {body : Tree} (h : ¬ LoopFits o current last body) :
    ∃ loop, buildLoop current last body = .ok loop ∧ ¬ o.fits loop = true := by
  simpa [LoopFits] using h

/-- A turn of a loop takes the last index from INTEGER, and a loop that is over builds nothing. -/
theorem range_eq_self_iff (o : Options) (m : Machine ρ) :
    range o m = .next m ↔ ¬ ExecOp.doRange.Ready o m := by
  constructor
  · rintro h ⟨last, current, integers, hi, body, hbody, hr⟩
    obtain ⟨rest, he⟩ := List.head?_eq_some_iff.1 (Option.mem_def.1 hbody)
    have hlen : ∀ {m' : Machine ρ}, m'.integer = current :: integers → (.next m' : Outcome Fault ρ) ≠ .next m :=
      fun hx => next_ne_of_depth .integer (by
        rw [Machine.stack, Stacks.get, hx, show m.stack .integer = last :: current :: integers from hi]
        exact (Nat.succ_ne_self _).symm)
    unfold range at h
    simp only [hi, he] at h
    split at h
    · exact hlen rfl h
    · rename_i hne
      split at h
      · cases h
      · rename_i loop hloop
        rw [if_pos (hr.resolve_left hne loop hloop)] at h
        exact hlen rfl h
  · intro h
    unfold range
    split
    · rename_i last current integers body rest hi he
      have hbody : body ∈ m.exec.head? := by rw [he]; rfl
      rw [if_neg fun hc => h ⟨last, current, integers, hi, body, hbody, .inl hc⟩]
      have hnot : ¬ LoopFits o (nearer current last) last body := fun hf =>
        h ⟨last, current, integers, hi, body, hbody, .inr hf⟩
      obtain ⟨loop, hloop, hf⟩ := exists_unfit hnot
      simp only [show buildLoop (if current < last then current + 1 else current - 1) last body = .ok loop from hloop]
      exact if_neg hf
    · rfl

theorem countWith_eq_self_iff (o : Options) (wrapBody : Tree → Tree) (m : Machine ρ) :
    countWith o wrapBody m = .next m ↔ ¬ CountReady o wrapBody m := by
  constructor
  · rintro h ⟨n, hn, body, hbody, hpos, hr⟩
    obtain ⟨integers, hi⟩ := List.head?_eq_some_iff.1 (Option.mem_def.1 hn)
    obtain ⟨rest, he⟩ := List.head?_eq_some_iff.1 (Option.mem_def.1 hbody)
    unfold countWith at h
    simp only [hi, he, if_neg (Int.not_lt.2 hpos)] at h
    split at h
    · cases h
    · rename_i loop hloop
      rw [if_pos (hr loop hloop)] at h
      refine next_ne_of_depth .integer ?_ h
      rw [show m.stack .integer = n :: integers from hi]
      exact (Nat.succ_ne_self _).symm
  · intro h
    unfold countWith
    split
    · rename_i n integers body rest hi he
      split
      · rfl
      · rename_i hpos
        have hnot : ¬ LoopFits o 0 (n - 1) (wrapBody body) := fun hf =>
          h ⟨n, by rw [hi]; rfl, body, by rw [he]; rfl, Int.not_lt.1 hpos, hf⟩
        obtain ⟨loop, hloop, hf⟩ := exists_unfit hnot
        simp only [hloop]
        exact if_neg hf
    · rfl

/-- **An EXEC instruction leaves the machine alone exactly when it is not ready.** -/
theorem run_eq_self_iff (o : Options) (m : Machine ρ) (op : ExecOp) : op.run o m = .next m ↔ ¬ op.Ready o m := by
  cases op with
  | choose => exact next_inj_iff.trans (choice_eq_self_iff m)
  | k => exact next_inj_iff.trans (constant_eq_self_iff m)
  | s => exact next_inj_iff.trans (distribute_eq_self_iff o m)
  | y => exact next_inj_iff.trans (recur_eq_self_iff o m)
  | doRange => exact range_eq_self_iff o m
  | doCount | doTimes => exact countWith_eq_self_iff o _ m

end ExecOp

/-! ## CODE -/

namespace CodeOp

theorem binary_eq_self_iff (o : Options) (f : Tree → Tree → Tree) (m : Machine ρ) :
    binary o f m = m ↔ ¬ BinaryReady o f m := by
  rw [binary_eq, merge_eq_self_iff]
  rfl

theorem unary_of_not_ready (f : Tree → Tree) {m : Machine ρ} (h : ¬ 1 ≤ m.code.length) : unary f m = m := by
  rw [unary_eq, Machine.move_of_not_ready]
  rw [moveReady_const_iff]
  exact fun hr => h hr.1

theorem test_eq_self_iff (o : Options) (p : Tree → Bool) (m : Machine ρ) :
    test o p m = m ↔ ¬ (1 ≤ m.code.length ∧ o.enables .boolean = true) := by
  rw [test_eq, move_eq_self_iff (by decide), moveReady_const_iff]
  rfl

theorem measure_eq_self_iff (o : Options) (f : Tree → Int) (m : Machine ρ) :
    measure o f m = m ↔ ¬ (1 ≤ m.code.length ∧ o.enables .integer = true) := by
  rw [measure_eq, move_eq_self_iff (by decide), moveReady_const_iff]
  rfl

theorem testMember_eq_self_iff (o : Options) (m : Machine ρ) :
    testMember o m = m ↔ ¬ (2 ≤ m.code.length ∧ o.enables .boolean = true) := by
  rw [testMember_eq, merge_eq_self_iff, mergeReady_const_iff]
  rfl

theorem pickItem_eq_self_iff (m : Machine ρ) : pickItem m = m ↔ ¬ (1 ≤ m.integer.length ∧ 1 ≤ m.code.length) := by
  rcases hi : m.integer with _ | ⟨n, integers⟩
  · simp [pickItem, hi]
  · rcases hc : m.code with _ | ⟨top, rest⟩
    · simp [pickItem, hi, hc]
    · simp only [pickItem, hi, hc]
      refine iff_of_false (ne_of_depth .integer ?_) (by simp)
      rw [show m.stack .integer = n :: integers from hi]
      exact Nat.succ_ne_self _ ∘ Eq.symm

theorem pushDefinition_eq_self_iff (m : Machine ρ) :
    pushDefinition m = m ↔ ¬ ∃ name ∈ m.name.head?, m.bindings.contains name = true := by
  rcases hn : m.name with _ | ⟨name, names⟩
  · simp [pushDefinition, hn]
  · cases hl : m.bindings.lookup name with
    | none => simp [pushDefinition, hn, hl, Bindings.contains]
    | some t =>
      simp only [pushDefinition, hn, hl]
      exact iff_of_false (ne_of_depth .code (Nat.succ_ne_self _)) (by simp [Bindings.contains, hl])

theorem executeTop_eq_self_iff (m : Machine ρ) : executeTop m = m ↔ ¬ 1 ≤ m.code.length := by
  rcases hc : m.code with _ | ⟨top, rest⟩
  · simp [executeTop, hc]
  · simp only [executeTop, hc]
    refine iff_of_false (ne_of_depth .exec ?_) (by simp)
    show m.exec.length + 2 ≠ m.exec.length
    omega

theorem executePopped_eq_self_iff (m : Machine ρ) : executePopped m = m ↔ ¬ 1 ≤ m.code.length := by
  rw [executePopped_eq, move_eq_self_iff (by decide), moveReady_const_iff]
  exact not_congr (and_iff_left rfl)

theorem choice_eq_self_iff (m : Machine ρ) : choice m = m ↔ ¬ (1 ≤ m.boolean.length ∧ 2 ≤ m.code.length) := by
  rcases hb : m.boolean with _ | ⟨c, booleans⟩
  · simp [choice, hb]
  · rcases hc : m.code with _ | ⟨top, _ | ⟨second, rest⟩⟩
    · simp [choice, hb, hc]
    · simp [choice, hb, hc]
    · simp only [choice, hb, hc]
      exact iff_of_false (ne_of_depth .exec (Nat.succ_ne_self _)) (by simp)

theorem quoteNext_eq_self_iff (o : Options) (m : Machine ρ) :
    quoteNext o m = m ↔ ¬ ∃ t ∈ m.exec.head?, o.fits t = true := by
  rw [quoteNext_eq, move_eq_self_iff (by decide)]
  rfl

/-- The item is taken even if it has no code. -/
theorem ofStack_eq_self_iff {k : Kind} (hk : k ≠ .code) (m : Machine ρ) :
    ofStack k m = .next m ↔ ¬ 1 ≤ (m.stack k).length := by
  rcases hs : m.stack k with _ | ⟨x, xs⟩
  · simp [ofStack, hs]
  · simp only [ofStack, hs]
    refine iff_of_false ?_ (by simp)
    split
    · refine next_ne_of_depth .code ?_
      have hc : (m.setStack k xs).code = m.code := m.stack_setStack_of_ne (Ne.symm hk) xs
      show ((m.setStack k xs).code).length + 1 ≠ m.code.length
      rw [hc]
      omega
    · exact fun he => by cases he

/-- The integer is taken even if the generator fails. -/
theorem random_eq_self_iff [RandomSource ρ] (o : Options) (m : Machine ρ) :
    random o m = .next m ↔ ¬ ∃ n ∈ m.integer.head?, 1 ≤ randomLimit o n := by
  rcases hi : m.integer with _ | ⟨n, integers⟩
  · simp [random, hi]
  · by_cases hl : randomLimit o n < 1
    · simp [random, hi, hl]
    · simp only [random, hi, if_neg hl]
      refine iff_of_false ?_ (by simpa using hl)
      split
      · exact next_ne_of_depth .code (Nat.succ_ne_self _)
      · exact fun he => by cases he

variable [RandomSource ρ]

theorem run_of_not_ready (o : Options) (m : Machine ρ) (op : CodeOp) (h : ¬ op.Ready o m) : op.run o m = .next m := by
  cases op with
  | append | cons | list => exact congrArg Outcome.next ((binary_eq_self_iff o _ m).2 h)
  | car | cdr => exact congrArg Outcome.next (unary_of_not_ready _ h)
  | atom | null => exact congrArg Outcome.next ((test_eq_self_iff o _ m).2 h)
  | member => exact congrArg Outcome.next ((testMember_eq_self_iff o m).2 h)
  | length | size => exact congrArg Outcome.next ((measure_eq_self_iff o _ m).2 h)
  | nth => exact congrArg Outcome.next ((pickItem_eq_self_iff m).2 h)
  | definition => exact congrArg Outcome.next ((pushDefinition_eq_self_iff m).2 h)
  | doKeep => exact congrArg Outcome.next ((executeTop_eq_self_iff m).2 h)
  | doPop => exact congrArg Outcome.next ((executePopped_eq_self_iff m).2 h)
  | choose => exact congrArg Outcome.next ((choice_eq_self_iff m).2 h)
  | quote => exact congrArg Outcome.next ((quoteNext_eq_self_iff o m).2 h)
  | noop => rfl
  | fromBoolean | fromFloat | fromInteger | fromName => exact (ofStack_eq_self_iff (by decide) m).2 h
  | rand => exact (random_eq_self_iff o m).2 h

theorem run_ne_self (o : Options) (m : Machine ρ) {op : CodeOp} (hi : (Instruction.code op).mayIdle = false)
    (h : op.Ready o m) : op.run o m ≠ .next m := by
  intro he
  cases op with
  | append | cons | list => exact (binary_eq_self_iff o _ m).1 (Outcome.next.inj he) h
  | car | cdr | noop => cases hi
  | atom | null => exact (test_eq_self_iff o _ m).1 (Outcome.next.inj he) h
  | member => exact (testMember_eq_self_iff o m).1 (Outcome.next.inj he) h
  | length | size => exact (measure_eq_self_iff o _ m).1 (Outcome.next.inj he) h
  | nth => exact (pickItem_eq_self_iff m).1 (Outcome.next.inj he) h
  | definition => exact (pushDefinition_eq_self_iff m).1 (Outcome.next.inj he) h
  | doKeep => exact (executeTop_eq_self_iff m).1 (Outcome.next.inj he) h
  | doPop => exact (executePopped_eq_self_iff m).1 (Outcome.next.inj he) h
  | choose => exact (choice_eq_self_iff m).1 (Outcome.next.inj he) h
  | quote => exact (quoteNext_eq_self_iff o m).1 (Outcome.next.inj he) h
  | fromBoolean | fromFloat | fromInteger | fromName => exact (ofStack_eq_self_iff (by decide) m).1 he h
  | rand => exact (random_eq_self_iff o m).1 he h

end CodeOp

/-! ## All instructions -/

namespace Instruction

variable [RandomSource ρ]

theorem run_of_not_ready (o : Options) (m : Machine ρ) (i : Instruction) (h : ¬ i.Ready o m) :
    i.run o m = .next m := by
  cases i with
  | stack k op => exact op.run_of_not_ready o k m h
  | integer op => exact congrArg Outcome.next ((op.run_eq_self_iff o m).2 h)
  | float op   => exact op.run_of_not_ready o m h
  | boolean op => exact congrArg Outcome.next ((op.run_eq_self_iff m).2 h)
  | name op    => exact op.run_of_not_ready m h
  | exec op    => exact (op.run_eq_self_iff o m).2 h
  | code op    => exact op.run_of_not_ready o m h

/-- NAME has no `define`. -/
theorem ne_name_of_define {k : Kind} (hi : Instruction.stack k .define ∈ all) : k ≠ .name := by
  rintro rfl
  rw [mem_all_iff] at hi
  revert hi
  decide

theorem run_ne_self (o : Options) (m : Machine ρ) {i : Instruction} (hi : i ∈ all) (hidle : i.mayIdle = false)
    (h : i.Ready o m) : i.run o m ≠ .next m := by
  cases i with
  | stack k op => exact op.run_ne_self o m hidle (fun hd => ne_name_of_define (hd ▸ hi)) h
  | integer op => exact fun he => (op.run_eq_self_iff o m).1 (Outcome.next.inj he) h
  | float op   => exact op.run_ne_self o m hidle h
  | boolean op => exact fun he => (op.run_eq_self_iff m).1 (Outcome.next.inj he) h
  | name op    => exact op.run_ne_self m hidle h
  | exec op    => exact fun he => (op.run_eq_self_iff o m).1 he h
  | code op    => exact op.run_ne_self o m hidle h

/-- **All or nothing**: an instruction whose precondition fails leaves the whole machine as it is, and does not fail;
one whose precondition holds does something, unless it may give back exactly what it took. -/
theorem all_or_nothing (o : Options) (m : Machine ρ) {i : Instruction} (hi : i ∈ all) :
    (¬ i.Ready o m → i.run o m = .next m) ∧ (i.mayIdle = false → i.Ready o m → i.run o m ≠ .next m) :=
  ⟨i.run_of_not_ready o m, run_ne_self o m hi⟩

/-- Three items are there, and the pair of the last two has three points: within a limit of three they are taken, and
within a limit of two none of them is. -/
theorem all_or_nothing_pair :
    let m := { Machine.initial (Twister.ofSeed 0) with exec := [.atom "a", .atom "b", .atom "c"] }
    Instruction.exec .s ∈ all ∧ (Instruction.exec .s).run { programPoints := 2 } m = .next m ∧
      (Instruction.exec .s).run { programPoints := 3 } m ≠ .next m := by
  have hm : Instruction.exec .s ∈ all := mem_all_iff.2 (by decide)
  refine ⟨hm, (all_or_nothing { programPoints := 2 } _ hm).1 ?_,
    (all_or_nothing { programPoints := 3 } _ hm).2 rfl ⟨_, _, _, _, rfl, by simp [Options.fits]⟩⟩
  rintro ⟨a, b, c, rest, he, hf⟩
  cases he
  simp [Options.fits] at hf

end Instruction
end PushMachine
