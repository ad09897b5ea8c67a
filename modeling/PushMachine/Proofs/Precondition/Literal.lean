import PushMachine.Proofs.Precondition.Basic
/-!
# Preconditions of the instructions on literals

INTEGER and BOOLEAN instructions leave the machine alone exactly when they are not ready.  So do FLOAT and NAME
instructions, but for a trigonometric function at a point that it does not move and a second `name.quote`.
-/
namespace PushMachine

open Machine (ne_of_depth next_ne_of_depth depth_pushDrawn merge_eq_self_iff move_eq_self_iff mergeReady_const_iff
  moveReady_const_iff mergeReady_top_iff)

variable {ρ : Type}

/-! ## INTEGER -/

namespace IntegerOp

theorem binary_eq_self_iff (f : Int → Int → Int) (m : Machine ρ) : binary f m = m ↔ ¬ 2 ≤ m.integer.length := by
  rw [binary_eq, merge_eq_self_iff, mergeReady_const_iff]
  exact not_congr (and_iff_left rfl)

theorem divide_eq_self_iff (f : Int → Int → Int) (m : Machine ρ) :
    divide f m = m ↔ ¬ (2 ≤ m.integer.length ∧ ∃ n ∈ m.integer.head?, n ≠ 0) := by
  rw [divide_eq, merge_eq_self_iff, mergeReady_top_iff (j := .integer) m (· != 0)]
  simp only [bne_iff_ne]
  rfl

theorem compare_eq_self_iff (o : Options) (p : Int → Int → Bool) (m : Machine ρ) :
    compare o p m = m ↔ ¬ (2 ≤ m.integer.length ∧ o.enables .boolean = true) := by
  rw [compare_eq, merge_eq_self_iff, mergeReady_const_iff]
  rfl

theorem ofBoolean_eq_self_iff (m : Machine ρ) : ofBoolean m = m ↔ ¬ 1 ≤ m.boolean.length := by
  rw [ofBoolean_eq, move_eq_self_iff (by decide), moveReady_const_iff]
  exact not_congr (and_iff_left rfl)

theorem ofFloat_eq_self_iff (m : Machine ρ) : ofFloat m = m ↔ ¬ ∃ x ∈ m.float.head?, Number.isFinite x = true := by
  rw [ofFloat_eq, move_eq_self_iff (by decide)]
  rfl

/-- **An INTEGER instruction leaves the machine alone exactly when it is not ready.** -/
theorem run_eq_self_iff [RandomSource ρ] (o : Options) (m : Machine ρ) (op : IntegerOp) :
    op.run o m = m ↔ ¬ op.Ready o m := by
  cases op with
  | add | sub | mul | max | min => exact binary_eq_self_iff _ m
  | div | mod => exact divide_eq_self_iff _ m
  | less | greater => exact compare_eq_self_iff o _ m
  | fromBoolean => exact ofBoolean_eq_self_iff m
  | fromFloat => exact ofFloat_eq_self_iff m
  | rand =>
    obtain ⟨x, supply, he⟩ := exists_random_eq o m
    rw [run, he]
    exact iff_of_false (ne_of_depth .integer (depth_pushDrawn m x supply)) (not_not_intro trivial)

end IntegerOp

/-! ## FLOAT -/

namespace FloatOp

theorem binary_eq_self_iff (f : Float → Float → Float) (m : Machine ρ) : binary f m = m ↔ ¬ 2 ≤ m.float.length := by
  rw [binary_eq, merge_eq_self_iff, mergeReady_const_iff]
  exact not_congr (and_iff_left rfl)

theorem divide_eq_self_iff (f : Float → Float → Float) (m : Machine ρ) :
    divide f m = m ↔ ¬ (2 ≤ m.float.length ∧ ∃ x ∈ m.float.head?, (x == 0.0) = false) := by
  rw [divide_eq, merge_eq_self_iff, mergeReady_top_iff (j := .float) m (fun x => !(x == 0.0))]
  simp only [Bool.not_eq_true']
  rfl

theorem compare_eq_self_iff (o : Options) (p : Float → Float → Bool) (m : Machine ρ) :
    compare o p m = m ↔ ¬ (2 ≤ m.float.length ∧ o.enables .boolean = true) := by
  rw [compare_eq, merge_eq_self_iff, mergeReady_const_iff]
  rfl

theorem unary_of_not_ready (f : Float → Float) {m : Machine ρ}
    (h : ¬ ∃ x ∈ m.float.head?, Number.isFinite x = true) : unary f m = m := by
  rw [unary_eq]
  exact Machine.move_of_not_ready (j := .float) (k := .float) f h

theorem ofBoolean_eq_self_iff (m : Machine ρ) : ofBoolean m = m ↔ ¬ 1 ≤ m.boolean.length := by
  rw [ofBoolean_eq, move_eq_self_iff (by decide), moveReady_const_iff]
  exact not_congr (and_iff_left rfl)

/-- The integer is taken even if no float is near it. -/
theorem ofInteger_eq_self_iff (m : Machine ρ) : ofInteger m = .next m ↔ ¬ 1 ≤ m.integer.length := by
  rcases h : m.integer with _ | ⟨n, rest⟩
  · simp [ofInteger, h]
  · simp only [ofInteger, h]
    refine iff_of_false ?_ (by simp)
    split
    · exact next_ne_of_depth .float (Nat.succ_ne_self _)
    · exact fun he => by cases he

theorem run_of_not_ready [RandomSource ρ] (o : Options) (m : Machine ρ) (op : FloatOp) (h : ¬ op.Ready o m) :
    op.run o m = .next m := by
  cases op with
  | add | sub | mul | max | min => exact congrArg Outcome.next ((binary_eq_self_iff _ m).2 h)
  | div | mod => exact congrArg Outcome.next ((divide_eq_self_iff _ m).2 h)
  | less | greater => exact congrArg Outcome.next ((compare_eq_self_iff o _ m).2 h)
  | sin | cos | tan => exact congrArg Outcome.next (unary_of_not_ready _ h)
  | fromBoolean => exact congrArg Outcome.next ((ofBoolean_eq_self_iff m).2 h)
  | fromInteger => exact (ofInteger_eq_self_iff m).2 h
  | rand => exact absurd trivial h

theorem run_ne_self [RandomSource ρ] (o : Options) (m : Machine ρ) {op : FloatOp}
    (hi : (Instruction.float op).mayIdle = false) (h : op.Ready o m) : op.run o m ≠ .next m := by
  intro he
  cases op with
  | add | sub | mul | max | min => exact (binary_eq_self_iff _ m).1 (Outcome.next.inj he) h
  | div | mod => exact (divide_eq_self_iff _ m).1 (Outcome.next.inj he) h
  | less | greater => exact (compare_eq_self_iff o _ m).1 (Outcome.next.inj he) h
  | sin | cos | tan => cases hi
  | fromBoolean => exact (ofBoolean_eq_self_iff m).1 (Outcome.next.inj he) h
  | fromInteger => exact (ofInteger_eq_self_iff m).1 he h
  | rand =>
    obtain ⟨x, supply, hx⟩ := exists_random_eq o m
    rw [run, hx] at he
    exact absurd he (next_ne_of_depth .float (depth_pushDrawn m x supply))

end FloatOp

/-! ## BOOLEAN -/

namespace BooleanOp

theorem binary_eq_self_iff (f : Bool → Bool → Bool) (m : Machine ρ) : binary f m = m ↔ ¬ 2 ≤ m.boolean.length := by
  rw [binary_eq, merge_eq_self_iff, mergeReady_const_iff]
  exact not_congr (and_iff_left rfl)

/-- The depth stays the same, but the top does not. -/
theorem negate_eq_self_iff (m : Machine ρ) : negate m = m ↔ ¬ 1 ≤ m.boolean.length := by
  rcases h : m.boolean with _ | ⟨b, rest⟩
  · simp [negate, h]
  · simp only [negate, h]
    refine iff_of_false (fun he => ?_) (by simp)
    have hb : (!b) :: rest = b :: rest := (congrArg (·.boolean) he).trans h
    cases b <;> cases hb

theorem ofFloat_eq_self_iff (m : Machine ρ) : ofFloat m = m ↔ ¬ 1 ≤ m.float.length := by
  rw [ofFloat_eq, move_eq_self_iff (by decide), moveReady_const_iff]
  exact not_congr (and_iff_left rfl)

theorem ofInteger_eq_self_iff (m : Machine ρ) : ofInteger m = m ↔ ¬ 1 ≤ m.integer.length := by
  rw [ofInteger_eq, move_eq_self_iff (by decide), moveReady_const_iff]
  exact not_congr (and_iff_left rfl)

/-- **A BOOLEAN instruction leaves the machine alone exactly when it is not ready.** -/
theorem run_eq_self_iff [RandomSource ρ] (m : Machine ρ) (op : BooleanOp) : op.run m = m ↔ ¬ op.Ready m := by
  cases op with
  | and | or => exact binary_eq_self_iff _ m
  | not => exact negate_eq_self_iff m
  | fromFloat => exact ofFloat_eq_self_iff m
  | fromInteger => exact ofInteger_eq_self_iff m
  | rand =>
    obtain ⟨x, supply, he⟩ := exists_random_eq m
    rw [run, he]
    exact iff_of_false (ne_of_depth .boolean (depth_pushDrawn m x supply)) (not_not_intro trivial)

end BooleanOp

/-! ## NAME -/

namespace NameOp

variable [RandomSource ρ]

theorem boundName_eq_self_iff (m : Machine ρ) : boundName m = m ↔ ¬ 1 ≤ m.bindings.size := by
  refine ⟨fun he h => ?_, boundName_of_size_zero⟩
  obtain ⟨name, supply, hn⟩ := exists_boundName_eq h
  rw [hn] at he
  exact ne_of_depth .name (depth_pushDrawn m name supply) he

theorem run_of_not_ready (m : Machine ρ) (op : NameOp) (h : ¬ op.Ready m) : op.run m = .next m := by
  cases op with
  | quote | rand => exact absurd trivial h
  | randBoundName => exact congrArg Outcome.next ((boundName_eq_self_iff m).2 h)

theorem run_ne_self (m : Machine ρ) {op : NameOp} (hi : (Instruction.name op).mayIdle = false) (h : op.Ready m) :
    op.run m ≠ .next m := by
  cases op with
  | quote => cases hi
  | rand =>
    rw [run, newName]
    split
    · exact next_ne_of_depth .name (Nat.succ_ne_self _)
    · exact fun he => by cases he
  | randBoundName => exact fun he => (boundName_eq_self_iff m).1 (Outcome.next.inj he) h

end NameOp
end PushMachine
