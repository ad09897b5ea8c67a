import PushMachine.Proofs.Growth.Basic
import PushMachine.Proofs.RandomSize
/-!
# What instructions on code can add

An instruction that builds a tree tests what it builds, or takes a part of a tree that is there, or draws a tree within
the limit; so no tree outgrows a size that no tree had before and that the limit does not exceed.  An instruction that
copies a tree copies one only, and `code.do` adds a token beside it (`Instruction.run_grows`).
-/
namespace PushMachine

open Machine (Grows)

variable {ρ : Type} {o : Options} {size : Nat} {m : Machine ρ}

theorem Options.points_le_of_fits (ho : o.programPoints ≤ size) {t : Tree} (h : o.fits t = true) : t.points ≤ size := by
  simp only [fits, decide_eq_true_eq] at h
  omega

/-! ## Parts of a tree -/

namespace Tree

theorem pointsAll_items_le : ∀ t : Tree, pointsAll t.items ≤ t.points
  | .atom token => by simp [items]
  | .list ts    => by simp [items]

/-- An item of a tree, or an empty list in its place, has no more points than the tree. -/
theorem points_getD_items_le (t : Tree) (i : Nat) : (t.items.getD i (.list [])).points ≤ t.points := by
  rw [List.getD_eq_getElem?_getD]
  cases h : t.items[i]? with
  | none =>
    have := t.points_pos
    simp only [Option.getD_none, points_list, pointsAll_nil]
    omega
  | some u => exact Nat.le_trans (points_le_of_mem (List.mem_of_getElem? h)) t.pointsAll_items_le

theorem points_first_le (t : Tree) : (CodeOp.first t).points ≤ t.points := by
  have h := t.points_getD_items_le 0
  rwa [List.getD_eq_getElem?_getD, ← List.head?_eq_getElem?, ← List.headD_eq_head?_getD] at h

theorem points_others_le : ∀ t : Tree, (CodeOp.others t).points ≤ t.points
  | .atom token     => by simp [CodeOp.others, items]
  | .list []        => by simp [CodeOp.others, items]
  | .list (u :: us) => by simp [CodeOp.others, items]

end Tree

/-! ## Replacing EXEC or CODE -/

namespace Machine

theorem Bounded.exec (hm : m.Bounded size) : ∀ t ∈ m.exec, t.points ≤ size := hm.stack .exec

theorem Bounded.code (hm : m.Bounded size) : ∀ t ∈ m.code, t.points ≤ size := hm.stack .code

theorem Grows.setExec (hm : m.Bounded size) {ts : List Tree} (hts : ∀ t ∈ ts, t.points ≤ size)
    (hw : Tree.pointsAll ts ≤ Tree.pointsAll m.exec + size + 1) : m.Grows size { m with exec := ts } := by
  rw [Tree.pointsAll_eq_sum, Tree.pointsAll_eq_sum] at hw
  exact Grows.setStack (k := .exec) hm hts hw

theorem Grows.setCode (hm : m.Bounded size) {ts : List Tree} (hts : ∀ t ∈ ts, t.points ≤ size)
    (hw : Tree.pointsAll ts ≤ Tree.pointsAll m.code + size + 1) : m.Grows size { m with code := ts } := by
  rw [Tree.pointsAll_eq_sum, Tree.pointsAll_eq_sum] at hw
  exact Grows.setStack (k := .code) hm hts hw

end Machine

/-! ## EXEC -/

namespace ExecOp

theorem choice_grows (hm : m.Bounded size) : m.Grows size (choice m) := by
  unfold choice
  split
  · rename_i c booleans a b rest hb he
    have hall := hm.exec
    simp only [he, List.forall_mem_cons] at hall
    obtain ⟨hal, hbl, hrest⟩ := hall
    refine Grows.of_pop (k := .boolean) hb (Grows.setExec (hm.pop (k := .boolean) hb) ?_ ?_)
    · refine List.forall_mem_cons.2 ⟨?_, hrest⟩
      split
      · exact hal
      · exact hbl
    · show _ ≤ Tree.pointsAll m.exec + size + 1
      rw [he]
      split <;> (simp only [Tree.pointsAll_cons]; omega)
  · exact .refl hm

/-- The pair takes the place of `b`, which it holds. -/
theorem distribute_grows (ho : o.programPoints ≤ size) (hm : m.Bounded size) : m.Grows size (distribute o m) := by
  unfold distribute
  split
  · rename_i a b c rest he
    split
    · rename_i hf
      have hfit := o.points_le_of_fits ho hf
      have hall := hm.exec
      simp only [he, List.forall_mem_cons] at hall
      obtain ⟨hal, hbl, hcl, hrest⟩ := hall
      refine Grows.setExec hm (by simp only [List.forall_mem_cons]; exact ⟨hal, hcl, hfit, hrest⟩) ?_
      rw [he]
      simp only [Tree.pointsAll_cons, Tree.points_list, Tree.pointsAll_nil] at hfit ⊢
      omega
    · exact .refl hm
  · exact .refl hm

theorem recur_grows (ho : o.programPoints ≤ size) (hm : m.Bounded size) : m.Grows size (recur o m) := by
  unfold recur
  split
  · rename_i a rest he
    split
    · rename_i hf
      have hfit := o.points_le_of_fits ho hf
      have hall := hm.exec
      simp only [he, List.forall_mem_cons] at hall
      obtain ⟨hal, hrest⟩ := hall
      refine Grows.setExec hm (by simp only [List.forall_mem_cons]; exact ⟨hal, hfit, hrest⟩) ?_
      rw [he]
      simp only [Tree.pointsAll_cons]
      omega
    · exact .refl hm
  · exact .refl hm

/-- A turn of a loop adds what is left of the loop, and a last turn adds nothing. -/
theorem range_grows (ho : o.programPoints ≤ size) (hm : m.Bounded size) : m.Grows size (range o m).machine := by
  unfold range
  split
  · rename_i last current integers body rest hi he
    have hp : (m.setStack .integer (current :: integers)).Bounded size := hm.pop (k := .integer) hi
    split
    · refine Grows.of_pop (k := .integer) hi ?_
      exact Grows.congr (.refl hp) (by simp [he, Machine.setStack, Stacks.set, Outcome.machine]) rfl
    · split
      · exact .refl hm
      · rename_i loop _
        split
        · rename_i hf
          have hfit := o.points_le_of_fits ho hf
          have hall := hm.exec
          simp only [he, List.forall_mem_cons] at hall
          obtain ⟨hal, hrest⟩ := hall
          refine Grows.of_pop (k := .integer) hi (Grows.setExec hp ?_ ?_)
          · simp only [List.forall_mem_cons]
            exact ⟨hal, hfit, hrest⟩
          · show _ ≤ Tree.pointsAll m.exec + size + 1
            rw [he]
            simp only [Tree.pointsAll_cons]
            omega
        · exact .refl hm
  · exact .refl hm

theorem countWith_grows (ho : o.programPoints ≤ size) (hm : m.Bounded size) (wrapBody : Tree → Tree) :
    m.Grows size (countWith o wrapBody m).machine := by
  unfold countWith
  split
  · rename_i n integers body rest hi he
    split
    · exact .refl hm
    · split
      · exact .refl hm
      · rename_i loop _
        split
        · rename_i hf
          have hfit := o.points_le_of_fits ho hf
          have hall := hm.exec
          simp only [he, List.forall_mem_cons] at hall
          refine Grows.of_pop (k := .integer) hi (Grows.setExec (hm.pop (k := .integer) hi) ?_ ?_)
          · exact List.forall_mem_cons.2 ⟨hfit, hall.2⟩
          · show _ ≤ Tree.pointsAll m.exec + size + 1
            rw [he]
            simp only [Tree.pointsAll_cons]
            omega
        · exact .refl hm
  · exact .refl hm

/-- **What an EXEC instruction adds.** -/
theorem run_grows (ho : o.programPoints ≤ size) (hm : m.Bounded size) (op : ExecOp) :
    m.Grows size (op.run o m).machine := by
  cases op with
  | choose => exact choice_grows hm
  | k =>
    rw [run, constant_eq]
    exact .merge hm fun _ _ a ha _ => hm.exec a ha
  | s => exact distribute_grows ho hm
  | y => exact recur_grows ho hm
  | doRange => exact range_grows ho hm
  | doCount | doTimes => exact countWith_grows ho hm _

end ExecOp

/-! ## CODE -/

namespace CodeOp

theorem pickItem_grows (hm : m.Bounded size) : m.Grows size (pickItem m) := by
  unfold pickItem
  split
  · rename_i n integers top rest hi hc
    have hall := hm.code
    simp only [hc, List.forall_mem_cons] at hall
    have hitem : (item n top).points ≤ top.points := top.points_getD_items_le _
    refine Grows.of_pop (k := .integer) hi (Grows.setCode (hm.pop (k := .integer) hi) ?_ ?_)
    · exact List.forall_mem_cons.2 ⟨Nat.le_trans hitem hall.1, hall.2⟩
    · show _ ≤ Tree.pointsAll m.code + size + 1
      rw [hc]
      simp only [Tree.pointsAll_cons]
      omega
  · exact .refl hm

theorem pushDefinition_grows (hm : m.Bounded size) : m.Grows size (pushDefinition m) := by
  unfold pushDefinition
  split
  · rename_i name names hn
    split
    · rename_i t ht
      have hpt : t.points ≤ size := hm.bindings t (Bindings.mem_of_find? _ ht)
      exact Grows.of_pop (k := .name) hn (Grows.push (k := .code) (hm.pop (k := .name) hn) hpt)
    · exact .refl hm
  · exact .refl hm

/-- The one instruction that adds an item and a token. -/
theorem executeTop_grows (hs : 1 ≤ size) (hm : m.Bounded size) : m.Grows size (executeTop m) := by
  unfold executeTop
  split
  · rename_i top rest hc
    have htop : top.points ≤ size := hm.head (k := .code) hc
    have htoken : popToken.points = 1 := Tree.points_atom _
    refine Grows.setExec hm ?_ ?_
    · simp only [List.forall_mem_cons]
      exact ⟨htop, by omega, hm.exec⟩
    · simp only [Tree.pointsAll_cons]
      omega
  · exact .refl hm

theorem choice_grows (hm : m.Bounded size) : m.Grows size (choice m) := by
  unfold choice
  split
  · rename_i c booleans top second rest hb hc
    have hall := hm.code
    simp only [hc, List.forall_mem_cons] at hall
    obtain ⟨htop, hsecond, hrest⟩ := hall
    have hp : (m.setStack .boolean booleans).Bounded size := hm.pop (k := .boolean) hb
    have hx : (m.setStack .boolean booleans).stack .code = top :: second :: rest := hc
    refine Grows.of_pop (k := .boolean) hb (Grows.of_pop_two hx (Grows.push (k := .exec) (hp.setStack hrest) ?_))
    split
    · exact hsecond
    · exact htop
  · exact .refl hm

theorem ofStack_grows {k : Kind} (hm : m.Bounded size) : m.Grows size (ofStack k m).machine := by
  unfold ofStack
  split
  · exact .refl hm
  · rename_i x xs hx
    refine Grows.of_pop hx ?_
    dsimp only
    split
    · rename_i t ht
      have hpt : t.points ≤ size := by rw [Tree.points_ofItem ht]; exact hm.head hx
      exact Grows.push (k := .code) (hm.pop hx) hpt
    · exact .refl (hm.pop hx)

/-- The tree that is drawn is within the limit for programs, whatever was asked for. -/
theorem random_grows [RandomSource ρ] (ho : o.programPoints ≤ size) (hm : m.Bounded size) :
    m.Grows size (random o m).machine := by
  unfold random
  split
  · exact .refl hm
  · rename_i n integers hi
    split
    · exact .refl hm
    · rename_i hn
      have hp : (m.setStack .integer integers).Bounded size := hm.pop (k := .integer) hi
      refine Grows.of_pop (k := .integer) hi ?_
      split
      · rename_i t supply ht
        have hpt := RandomCode.upTo_yields o (randomLimit o n) m.supply t supply ht
        have hlim : randomLimit o n ≤ o.programPoints := by unfold randomLimit; omega
        exact (Grows.push (k := .code) hp (show t.points ≤ size by omega)).congr rfl rfl
      · exact (Grows.refl hp).congr rfl rfl

/-- **What a CODE instruction adds.** -/
theorem run_grows [RandomSource ρ] (hs : 1 ≤ size) (ho : o.programPoints ≤ size) (hm : m.Bounded size) (op : CodeOp) :
    m.Grows size (op.run o m).machine := by
  cases op with
  | append | cons | list =>
    rw [run, binary_eq]
    exact Grows.merge (j := .code) (k := .code) hm fun _ _ _ _ hf => o.points_le_of_fits ho hf
  | car =>
    rw [run, unary_eq]
    exact Grows.move (j := .code) (k := .code) hm fun t ht _ => Nat.le_trans t.points_first_le (hm.code t ht)
  | cdr =>
    rw [run, unary_eq]
    exact Grows.move (j := .code) (k := .code) hm fun t ht _ => Nat.le_trans t.points_others_le (hm.code t ht)
  | atom | null => rw [run, test_eq]; exact .move hm fun _ _ _ => hs
  | member => rw [run, testMember_eq]; exact .merge hm fun _ _ _ _ _ => hs
  | length | size => rw [run, measure_eq]; exact .move hm fun _ _ _ => hs
  | nth => exact pickItem_grows hm
  | definition => exact pushDefinition_grows hm
  | doKeep => exact executeTop_grows hs hm
  | doPop =>
    rw [run, executePopped_eq]
    exact Grows.move (j := .code) (k := .exec) hm fun t ht _ => hm.code t ht
  | choose => exact choice_grows hm
  | quote =>
    rw [run, quoteNext_eq]
    exact Grows.move (j := .exec) (k := .code) hm fun t ht _ => hm.exec t ht
  | noop => exact .refl hm
  | fromBoolean | fromFloat | fromInteger | fromName => exact ofStack_grows hm
  | rand => exact random_grows ho hm

end CodeOp

/-! ## All instructions -/

/-- **What an instruction adds**: no tree outgrows the size, and the machine gets heavier by at most one item of that
size and one more point. -/
theorem Instruction.run_grows [RandomSource ρ] (hs : 1 ≤ size) (ho : o.programPoints ≤ size) (hm : m.Bounded size)
    (i : Instruction) : m.Grows size (i.run o m).machine := by
  cases i with
  | stack k op => exact op.run_grows o hs hm
  | integer op => exact op.run_grows o hs hm
  | float op   => exact op.run_grows o hs hm
  | boolean op => exact op.run_grows hs hm
  | name op    => exact op.run_grows hs hm
  | exec op    => exact op.run_grows ho hm
  | code op    => exact op.run_grows hs ho hm

end PushMachine
