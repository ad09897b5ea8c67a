import PushMachine.Proofs.Precondition.Code
/-!
# Lists of code

To the instructions that take lists apart a token is the list of itself, so `car` and `cdr` of a tree make that list
again with `cons`, from whatever tree but the empty list.  `append` puts the items of the top tree before those of the
second, and the instructions that look at a list can tell no more than that: its length, its points, its items by index
and its members are those of the two parts (`Machine.Joins`).
-/
namespace PushMachine

variable {ρ : Type}

namespace Tree

theorem items_ne_nil {t : Tree} (h : t ≠ .list []) : t.items ≠ [] := by
  cases t with
  | atom token => exact List.cons_ne_nil _ _
  | list ts    => exact fun hts => h (congrArg Tree.list hts)

/-- One list takes the place of two. -/
theorem points_append (t u : Tree) :
    (Tree.list (t.items ++ u.items)).points + 1 = t.asList.points + u.asList.points := by
  simp only [asList, points_list, pointsAll_append]
  omega

end Tree

theorem Options.fits_iff {o : Options} {t : Tree} : o.fits t = true ↔ (t.points : Int) ≤ o.programPoints :=
  decide_eq_true_iff

/-! ## Taking a list apart and making it again -/

namespace CodeOp

theorem first_cons_others {t : Tree} (h : t ≠ .list []) : Tree.list (first t :: (others t).items) = t.asList := by
  obtain ⟨u, us, ht⟩ := List.exists_cons_of_ne_nil (Tree.items_ne_nil h)
  rw [first, others, Tree.asList, ht]
  rfl

theorem binary_of_fits {o : Options} {f : Tree → Tree → Tree} {m : Machine ρ} {top second : Tree} {rest : List Tree}
    (h : m.code = top :: second :: rest) (hf : o.fits (f second top) = true) :
    binary o f m = { m with code := f second top :: rest } := by
  rw [binary, h]
  exact if_pos hf

end CodeOp

namespace Instruction

variable [RandomSource ρ] {o : Options} {m m₁ : Machine ρ}

/-- Instructions in turn, up to one that fails. -/
def runEach (o : Options) (m : Machine ρ) : List Instruction → Outcome Fault ρ
  | []      => .next m
  | i :: is =>
    match i.run o m with
    | .next m₁   => runEach o m₁ is
    | .stop f m₁ => .stop f m₁

theorem runEach_cons {i : Instruction} (h : i.run o m = .next m₁) (is : List Instruction) :
    runEach o m (i :: is) = runEach o m₁ is := by
  rw [runEach, h]

/-- The first item and the others, put together again. -/
def rebuild : List Instruction := [.stack .code .dup, .code .car, .stack .code .swap, .code .cdr, .code .cons]

theorem runEach_rebuild {x : Tree} {rest : List Tree} (hm : m.code = x :: rest) (hx : x ≠ .list [])
    (hfits : o.fits x.asList = true) : runEach o m rebuild = .next { m with code := x.asList :: rest } := by
  have hdup : (Instruction.stack .code .dup).run o m = .next { m with code := x :: x :: rest } :=
    congrArg Outcome.next (congrArg (m.setStack .code) (congrArg Stack.dup hm))
  have hcons : (Instruction.code .cons).run o { m with code := CodeOp.others x :: CodeOp.first x :: rest } =
      .next { m with code := .list (CodeOp.first x :: (CodeOp.others x).items) :: rest } :=
    congrArg Outcome.next (CodeOp.binary_of_fits rfl ((CodeOp.first_cons_others hx).symm ▸ hfits))
  calc runEach o m rebuild
      = runEach o { m with code := x :: x :: rest } [.code .car, .stack .code .swap, .code .cdr, .code .cons] :=
        runEach_cons hdup _
    _ = runEach o { m with code := CodeOp.first x :: x :: rest } [.stack .code .swap, .code .cdr, .code .cons] :=
        runEach_cons rfl _
    _ = runEach o { m with code := x :: CodeOp.first x :: rest } [.code .cdr, .code .cons] := runEach_cons rfl _
    _ = runEach o { m with code := CodeOp.others x :: CodeOp.first x :: rest } [.code .cons] := runEach_cons rfl _
    _ = .next { m with code := .list (CodeOp.first x :: (CodeOp.others x).items) :: rest } :=
        runEach_cons hcons _
    _ = .next { m with code := x.asList :: rest } := by rw [CodeOp.first_cons_others hx]

end Instruction

/-! ## What can be seen of a list -/

namespace Machine

variable [RandomSource ρ] (o : Options) (m : Machine ρ)

/-- Of a tree on CODE, `code.length` makes `n`. -/
def LengthIs (t : Tree) (n : Int) : Prop :=
  (Instruction.code .length).run o { m with code := t :: m.code } = .next { m with integer := n :: m.integer }

/-- Of a tree on CODE and an index on INTEGER, `code.nth` makes `u`. -/
def NthIs (t : Tree) (i : Nat) (u : Tree) : Prop :=
  (Instruction.code .nth).run o { m with integer := i :: m.integer, code := t :: m.code }
    = .next { m with code := u :: m.code }

/-- Of a tree on CODE and `u` beneath it, `code.member` makes `b`. -/
def MemberIs (t u : Tree) (b : Bool) : Prop :=
  (Instruction.code .member).run o { m with code := t :: u :: m.code } = .next { m with boolean := b :: m.boolean }

/-- **All that can be seen of `r` is seen of `x` and `y`**, the items of `x` first. -/
structure Joins (r x y : Tree) : Prop where
  points    : r.points = x.asList.points + y.asList.points - 1
  length    : o.enables .integer = true → m.LengthIs o x x.items.length ∧ m.LengthIs o y y.items.length ∧
    m.LengthIs o r (x.items.length + y.items.length)
  nth_left  : ∀ i (h : i < x.items.length), m.NthIs o r i x.items[i]
  nth_right : ∀ i (h : i < y.items.length), m.NthIs o r (x.items.length + i) y.items[i]
  member    : o.enables .boolean = true → ∀ z, ∃ a b, m.MemberIs o x z a ∧ m.MemberIs o y z b ∧
    m.MemberIs o r z (a || b)

variable {o}

theorem lengthIs_items (h : o.enables .integer = true) (t : Tree) : m.LengthIs o t t.items.length :=
  congrArg Outcome.next (if_pos h)

theorem memberIs_items (h : o.enables .boolean = true) (t u : Tree) : m.MemberIs o t u (t.items.contains u) :=
  congrArg Outcome.next (if_pos h)

variable (o)

/-- An index within the list is not counted round. -/
theorem nthIs_items (t : Tree) {i : Nat} {u : Tree} (h : t.items[i]? = some u) : m.NthIs o t i u := by
  obtain ⟨hi, -⟩ := List.getElem?_eq_some_iff.1 h
  have hitem : CodeOp.item i t = u := by
    rw [CodeOp.item, Int.natAbs_natCast, Nat.mod_eq_of_lt hi, List.getD_eq_getElem?_getD, h]
    rfl
  exact congrArg (fun v => Outcome.next { m with code := v :: m.code }) hitem

theorem joins_append (x y : Tree) : m.Joins o (.list (x.items ++ y.items)) x y where
  points := by
    have h := Tree.points_append x y
    omega
  length h := by
    refine ⟨m.lengthIs_items h x, m.lengthIs_items h y, ?_⟩
    have hr := m.lengthIs_items h (.list (x.items ++ y.items))
    rwa [Tree.items, List.length_append, Int.natCast_add] at hr
  nth_left i h := by
    refine m.nthIs_items o _ ?_
    rw [Tree.items, List.getElem?_append_left h, List.getElem?_eq_getElem h]
  nth_right i h := by
    refine m.nthIs_items o _ ?_
    rw [Tree.items, List.getElem?_append_right (Nat.le_add_right _ _), Nat.add_sub_cancel_left,
      List.getElem?_eq_getElem h]
  member h z := by
    refine ⟨_, _, m.memberIs_items h x z, m.memberIs_items h y z, ?_⟩
    have hr := m.memberIs_items h (.list (x.items ++ y.items)) z
    rwa [Tree.items, List.contains_append] at hr

end Machine

/-! ## Appending -/

namespace Instruction

variable [RandomSource ρ] {o : Options} {m : Machine ρ} {x y : Tree} {rest : List Tree}

theorem fits_append_iff : o.fits (.list (x.items ++ y.items)) = true ↔
    (x.asList.points + y.asList.points : Int) - 1 ≤ o.programPoints := by
  rw [Options.fits_iff]
  have h := Tree.points_append x y
  omega

theorem run_append (hm : m.code = x :: y :: rest)
    (h : (x.asList.points + y.asList.points : Int) - 1 ≤ o.programPoints) :
    (Instruction.code .append).run o m = .next { m with code := .list (x.items ++ y.items) :: rest } :=
  congrArg Outcome.next (CodeOp.binary_of_fits hm (fits_append_iff.2 h))

theorem run_append_eq_self_iff (hm : m.code = x :: y :: rest) :
    (Instruction.code .append).run o m = .next m ↔
      o.programPoints < (x.asList.points + y.asList.points : Int) - 1 := by
  have hready : CodeOp.BinaryReady o (fun second top => .list (top.items ++ second.items)) m ↔
      o.fits (.list (x.items ++ y.items)) = true := by
    constructor
    · rintro ⟨top, second, rest', hm', hf⟩
      obtain ⟨rfl, rfl, -⟩ : x = top ∧ y = second ∧ rest = rest' := by simpa using hm.symm.trans hm'
      exact hf
    · exact fun hf => ⟨x, y, rest, hm, hf⟩
  calc (Instruction.code .append).run o m = .next m
      ↔ CodeOp.binary o (fun second top => .list (top.items ++ second.items)) m = m :=
        ⟨Outcome.next.inj, congrArg Outcome.next⟩
    _ ↔ ¬ o.fits (.list (x.items ++ y.items)) = true := by rw [CodeOp.binary_eq_self_iff, hready]
    _ ↔ _ := by rw [fits_append_iff, Int.not_le]

/-- **CODE instructions obey the laws of lists.** -/
theorem code_list_laws (o : Options) (m : Machine ρ) :
    (∀ x rest, m.code = x :: rest → x ≠ .list [] → (x.asList.points : Int) ≤ o.programPoints →
      runEach o m rebuild = .next { m with code := x.asList :: rest }) ∧
    ∀ x y rest, m.code = x :: y :: rest →
      ((x.asList.points + y.asList.points : Int) - 1 ≤ o.programPoints →
        ∃ r, (Instruction.code .append).run o m = .next { m with code := r :: rest } ∧
          ∀ m' : Machine ρ, m'.Joins o r x y) ∧
      ((Instruction.code .append).run o m = .next m ↔
        o.programPoints < (x.asList.points + y.asList.points : Int) - 1) := by
  constructor
  · exact fun x rest hm hx hfits => runEach_rebuild hm hx (Options.fits_iff.2 hfits)
  · intro x y rest hm
    exact ⟨fun h => ⟨_, run_append hm h, fun m' => m'.joins_append o x y⟩, run_append_eq_self_iff hm⟩

/-- A token is on top of a list of two. -/
theorem code_list_laws_token :
    let m := { Machine.initial (Twister.ofSeed 0) with code := [.atom "a", .list [.atom "b", .atom "c"]] }
    runEach {} m rebuild = .next { m with code := [.list [.atom "a"], .list [.atom "b", .atom "c"]] } ∧
      (∃ r, (Instruction.code .append).run {} m = .next { m with code := [r] } ∧
        m.Joins {} r (.atom "a") (.list [.atom "b", .atom "c"])) ∧
      (Instruction.code .append).run { programPoints := 3 } m = .next m := by
  intro m
  obtain ⟨hrebuild, happend⟩ := code_list_laws {} m
  obtain ⟨r, hr, hjoins⟩ := (happend _ _ _ rfl).1 (by simp [Tree.asList, Tree.items])
  refine ⟨hrebuild _ _ rfl (by simp) (by simp [Tree.asList, Tree.items]), ⟨r, hr, hjoins m⟩, ?_⟩
  exact (((code_list_laws { programPoints := 3 } m).2 _ _ _ rfl).2).2 (by simp [Tree.asList, Tree.items])

end Instruction
end PushMachine
