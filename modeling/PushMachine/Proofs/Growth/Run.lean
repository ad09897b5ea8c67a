import Mathlib.Data.List.MinMax
import PushMachine.Proofs.Evaluation
import PushMachine.Proofs.Growth.Code
/-!
# How much a run can add

A step pops an item before it executes it, so what the item weighs pays for the point that an instruction may add beside
a copy: a step makes a machine heavier by at most one item of the largest size.  By induction on the steps, no tree of a
run outgrows the larger of the limit for programs and the largest tree at the start, and the weight of a machine grows
at most linearly (`treesWithin_sizeBound`, `weight_le_linear`).
-/
namespace PushMachine
namespace Machine

variable {ρ : Type} {o : Options} {size : Nat} {m : Machine ρ} {t : Tree}

/-! ## The size at the start -/

/-- The larger of the limit for programs and the points of the largest tree that is there when a program starts, the
program among them. -/
def sizeBound (o : Options) (m : Machine ρ) (t : Tree) : Nat :=
  (o.programPoints.toNat :: (t :: m.trees).map Tree.points).foldr max 0

theorem points_le_sizeBound (o : Options) (m : Machine ρ) (t : Tree) :
    ∀ u ∈ t :: m.trees, u.points ≤ m.sizeBound o t :=
  fun _ hu => List.le_max_of_le' 0 (List.mem_cons_of_mem _ (List.mem_map_of_mem hu)) (Nat.le_refl _)

theorem one_le_sizeBound (o : Options) (m : Machine ρ) (t : Tree) : 1 ≤ m.sizeBound o t :=
  Nat.le_trans t.points_pos (points_le_sizeBound o m t t List.mem_cons_self)

theorem programPoints_le_sizeBound (o : Options) (m : Machine ρ) (t : Tree) : o.programPoints ≤ m.sizeBound o t := by
  have h : o.programPoints.toNat ≤ m.sizeBound o t := List.le_max_of_le' 0 List.mem_cons_self (Nat.le_refl _)
  omega

theorem mem_trees_load {u : Tree} (h : u ∈ (m.load t).trees) : u ∈ t :: m.trees := by
  simpa only [load, trees, List.cons_append] using h

/-- Pushing the program as data too adds no other tree. -/
theorem mem_trees_start_load {u : Tree} (h : u ∈ ((m.start o t).load t).trees) : u ∈ t :: m.trees := by
  rcases List.mem_cons.1 (mem_trees_load h) with rfl | h
  · exact List.mem_cons_self
  · unfold start at h
    dsimp only at h
    split at h
    · simp only [trees, reset, List.mem_append, List.mem_cons] at h ⊢
      tauto
    · exact List.mem_cons_of_mem t h

theorem mem_trees_finish {u : Tree} (h : u ∈ (m.finish o).trees) : u ∈ m.trees := by
  unfold finish at h
  split at h
  · simp only [trees, List.mem_append] at h ⊢
    exact h.imp_left fun h => h.imp_right List.mem_of_mem_tail
  · exact h

theorem weight_finish_le (m : Machine ρ) : (m.finish o).weight ≤ m.weight := by
  unfold finish
  split
  · rcases hc : m.code with _ | ⟨u, us⟩
    · exact Nat.le_of_eq (weight_congr (by rw [List.tail_nil, ← hc]) rfl)
    · have hw : weight { m with code := us } + u.points = m.weight := weight_pop (k := .code) hc
      exact Nat.le_of_add_right_le (Nat.le_of_eq hw)
  · exact Nat.le_refl _

/-! ## One item -/

theorem pushEnabled_grows (hm : m.Bounded size) {k : Kind} {x : k.Item} (hx : k.weight x ≤ size) :
    m.Grows size (m.pushEnabled o k x) := by
  unfold pushEnabled
  split
  · exact .push hm hx
  · exact .refl hm

/-- A name that is bound puts one of the trees of the machine onto EXEC. -/
theorem executeName_grows (hs : 1 ≤ size) (hm : m.Bounded size) (name : String) :
    m.Grows size (m.executeName o name) := by
  unfold executeName
  split
  · have hq : Bounded size { m with quoting := false } := hm.congr rfl rfl
    have hw : weight { m with quoting := false } = m.weight := weight_congr rfl rfl
    exact (pushEnabled_grows (k := .name) hq hs).of_le (Nat.le_of_eq hw)
  · split
    · rename_i t ht
      exact Grows.push (k := .exec) hm (hm.bindings t (Bindings.mem_of_find? _ ht))
    · exact pushEnabled_grows (k := .name) hm hs

/-- The items of a list weigh less than the list. -/
theorem openList_grows {items : List Tree} (hm : m.Bounded size) (ht : (Tree.list items).points ≤ size) :
    Bounded size { m with exec := items ++ m.exec } ∧
      weight { m with exec := items ++ m.exec } ≤ m.weight + (Tree.list items).points := by
  rw [Tree.points_list] at ht ⊢
  refine ⟨hm.setStack (k := .exec) fun u hu => ?_, ?_⟩
  · rcases List.mem_append.1 hu with hu | hu
    · exact Nat.le_trans (Tree.points_le_of_mem hu) (by omega)
    · exact hm.stack .exec u hu
  · have hw : weight { m with exec := items ++ m.exec } + Kind.exec.weigh m.exec =
        m.weight + Kind.exec.weigh (items ++ m.exec) := m.weight_setStack .exec (items ++ m.exec)
    rw [Kind.weigh_exec, Kind.weigh_exec, Tree.pointsAll_append] at hw
    omega

variable [RandomSource ρ]

/-- **What executing an item adds** to what the item itself weighs. -/
theorem execute_grows (hs : 1 ≤ size) (ho : o.programPoints ≤ size) (hm : m.Bounded size)
    (ht : t.points ≤ size) :
    (m.execute o t).machine.Bounded size ∧ (m.execute o t).machine.weight ≤ m.weight + t.points + size := by
  cases t with
  | list items =>
    obtain ⟨hb, hw⟩ := openList_grows hm ht
    exact ⟨hb, by simp only [execute, Outcome.machine]; omega⟩
  | atom token =>
    -- an atom weighs one point, which is the point that `Grows` leaves over
    suffices h : m.Grows size (m.execute o (.atom token)).machine by
      have hw := h.weight
      rw [Tree.points_atom]
      exact ⟨h.bounded, by omega⟩
    rw [execute]
    split
    · exact .refl hm
    · exact pushEnabled_grows (k := .integer) hm hs
    · exact pushEnabled_grows (k := .float) hm hs
    · exact pushEnabled_grows (k := .boolean) hm hs
    · exact executeName_grows hs hm _
    · split
      · exact .refl hm
      · rename_i i _
        have hi := i.run_grows hs ho hm
        split <;> (rename_i h; rw [h] at hi; exact hi)

/-! ## Runs -/

/-- **What a step adds**: no more than one item of the largest size. -/
theorem step_grows (hs : 1 ≤ size) (ho : o.programPoints ≤ size) (hm : m.Bounded size) {out : Outcome Stop ρ}
    (h : m.step o = some out) : out.machine.Bounded size ∧ out.machine.weight ≤ m.weight + size := by
  unfold step at h
  split at h
  · cases h
  · rename_i t rest he
    cases h
    have hp : Bounded size { m with exec := rest, steps := m.steps + 1 } := (hm.pop (k := .exec) he).congr rfl rfl
    have hw : weight { m with exec := rest, steps := m.steps + 1 } + t.points = m.weight := weight_pop (k := .exec) he
    obtain ⟨hb, hg⟩ := execute_grows hs ho hp (hm.head (k := .exec) he)
    exact ⟨hb, by omega⟩

/-- **What a run adds**, by induction on the steps that it may take. -/
theorem loop_grows (hs : 1 ≤ size) (ho : o.programPoints ≤ size) : ∀ (n : Nat) (m : Machine ρ), m.Bounded size →
    (loop o n m).2.Bounded size ∧ (loop o n m).2.weight ≤ m.weight + n * size
  | 0,     m, hm => ⟨hm, Nat.le_add_right _ _⟩
  | n + 1, m, hm => by
    rw [loop, Nat.succ_mul]
    split
    · exact ⟨hm, Nat.le_add_right _ _⟩
    · rename_i m₁ h
      obtain ⟨hb, hw⟩ := step_grows hs ho hm h
      obtain ⟨hb', hw'⟩ := loop_grows hs ho n m₁ hb
      simp only [Outcome.machine] at hw
      exact ⟨hb', by omega⟩
    all_goals
      rename_i h
      obtain ⟨hb, hw⟩ := step_grows hs ho hm h
      exact ⟨hb, by simp only [Outcome.machine] at hw ⊢; omega⟩

/-! ## Whole runs -/

/-- A run that starts with trees no larger than the bound. -/
theorem loop_sizeBound (n : Nat) {m₀ : Machine ρ} (h₀ : ∀ u ∈ m₀.trees, u ∈ t :: m.trees) :
    (loop o n m₀).2.TreesWithin (m.sizeBound o t) ∧ (loop o n m₀).2.weight ≤ m₀.weight + n * m.sizeBound o t := by
  have hs := one_le_sizeBound o m t
  have hb : m₀.Bounded (m.sizeBound o t) := (bounded_iff hs m₀).2 fun u hu => points_le_sizeBound o m t u (h₀ u hu)
  obtain ⟨hb', hw⟩ := loop_grows hs (programPoints_le_sizeBound o m t) n m₀ hb
  exact ⟨(bounded_iff hs _).1 hb', hw⟩

/-- The run of a program is the run of its code, and CODE may be popped after it. -/
theorem runTree_grows {bound : Nat} (h : ((m.start o t).runCode o t).2.TreesWithin size)
    (hw : ((m.start o t).runCode o t).2.weight ≤ bound) :
    (m.runTree o t).2.TreesWithin size ∧ (m.runTree o t).2.weight ≤ bound := by
  unfold runTree
  split
  · rename_i e m' hr
    rw [hr] at h hw
    exact ⟨fun u hu => h u (mem_trees_finish hu), Nat.le_trans m'.weight_finish_le hw⟩
  · rename_i f m' hr
    rw [hr] at h hw
    exact ⟨h, hw⟩

/-- **No tree outgrows the bound.**  After any number of steps of a run, and after the run, every tree that the machine
holds has at most as many points as the limit for programs or the largest tree at the start. -/
theorem treesWithin_sizeBound (o : Options) (m : Machine ρ) (t : Tree) :
    (∀ n, (loop o n (m.load t)).2.TreesWithin (m.sizeBound o t)) ∧
    (m.runCode o t).2.TreesWithin (m.sizeBound o t) ∧
    (∀ n, (loop o n ((m.start o t).load t)).2.TreesWithin (m.sizeBound o t)) ∧
    (m.runTree o t).2.TreesWithin (m.sizeBound o t) := by
  have hcode : ∀ n, (loop o n (m.load t)).2.TreesWithin (m.sizeBound o t) := fun n =>
    (loop_sizeBound n fun _ => mem_trees_load).1
  have htree : ∀ n, (loop o n ((m.start o t).load t)).2.TreesWithin (m.sizeBound o t) := fun n =>
    (loop_sizeBound n fun _ => mem_trees_start_load).1
  exact ⟨hcode, hcode _, htree, (runTree_grows (htree _) (Nat.le_refl _)).1⟩

/-- **The weight of a machine grows at most linearly.**  Each step of a run adds at most the bound to the weight that
the machine has once the program is pushed, so a run adds at most the bound for each step that it is allowed. -/
theorem weight_le_linear (o : Options) (m : Machine ρ) (t : Tree) :
    (∀ n, (loop o n (m.load t)).2.weight ≤ (m.load t).weight + n * m.sizeBound o t) ∧
    (m.runCode o t).2.weight ≤ (m.load t).weight + o.stepLimit.toNat * m.sizeBound o t ∧
    (∀ n, (loop o n ((m.start o t).load t)).2.weight ≤ ((m.start o t).load t).weight + n * m.sizeBound o t) ∧
    (m.runTree o t).2.weight ≤ ((m.start o t).load t).weight + o.stepLimit.toNat * m.sizeBound o t := by
  have hcode : ∀ n, (loop o n (m.load t)).2.weight ≤ (m.load t).weight + n * m.sizeBound o t := fun n =>
    (loop_sizeBound n fun _ => mem_trees_load).2
  have htree : ∀ n, (loop o n ((m.start o t).load t)).2.TreesWithin (m.sizeBound o t) ∧
      (loop o n ((m.start o t).load t)).2.weight ≤ ((m.start o t).load t).weight + n * m.sizeBound o t := fun n =>
    loop_sizeBound n fun _ => mem_trees_start_load
  -- the steps that are left are no more than the steps that are allowed
  have hbudget : ∀ m' : Machine ρ, m'.budget o * m.sizeBound o t ≤ o.stepLimit.toNat * m.sizeBound o t := fun m' =>
    Nat.mul_le_mul_right _ (by unfold budget; omega)
  refine ⟨hcode, Nat.le_trans (hcode _) (Nat.add_le_add_left (hbudget m) _), fun n => (htree n).2, ?_⟩
  exact (runTree_grows (htree _).1 (Nat.le_trans (htree _).2 (Nat.add_le_add_left (hbudget _) _))).2

end Machine
end PushMachine
