import PushMachine.Proofs.Likeness.Basic
import PushMachine.Proofs.Stack
/-!
# Instructions on machines that are alike

Instructions look into trees only to take them apart and to put them together, except for three that compare two trees
for equality.  All others take machines that are alike to machines that are alike (`Instruction.run_alike`), and so
none of them reads the count of steps.
-/
namespace PushMachine

variable {ρ : Type} {f : String → String}

namespace Instruction

/-- The instructions that compare two trees. -/
def comparesTrees : Instruction → Bool
  | .stack .exec .equal | .stack .code .equal | .code .member => true
  | _ => false

end Instruction

/-- What an item becomes as code is alike, or it is a name that cannot be code. -/
theorem Tree.ofItem_alike {k : Kind} {x y : k.Item} (h : k.fold f x = k.fold f y) :
    (∃ t u, Tree.ofItem k x = .ok t ∧ Tree.ofItem k y = .ok u ∧ t.Like f u) ∨
      ∃ e, Tree.ofItem k x = .error e ∧ Tree.ofItem k y = .error e := by
  have hsame : x = y → (∃ t u, Tree.ofItem k x = .ok t ∧ Tree.ofItem k y = .ok u ∧ t.Like f u) ∨
      ∃ e, Tree.ofItem k x = .error e ∧ Tree.ofItem k y = .error e := by
    rintro rfl
    cases hx : Tree.ofItem k x with
    | ok t => exact .inl ⟨t, t, rfl, rfl, .refl f t⟩
    | error e => exact .inr ⟨e, rfl, rfl⟩
  cases k with
  | integer | float | boolean | name => exact hsame h
  | exec | code => exact .inl ⟨x, y, rfl, rfl, h⟩

section Manipulations

variable {m m' : Machine ρ} {k : Kind}

namespace StackOp

theorem withDepth_alike (h : m.Alike f m') {act : Int → Stack k.Item → Stack k.Item}
    (hact : ∀ d xs, (act d xs).map (k.fold f) = act d (xs.map (k.fold f))) :
    (withDepth k act m).Alike f (withDepth k act m') := by
  unfold withDepth
  rw [h.integer]
  cases m'.integer with
  | nil => exact h
  | cons depth rest =>
    have hp : (m.setStack .integer rest).Alike f (m'.setStack .integer rest) := h.setStack rfl
    have hq : ∀ n : Machine ρ, { n with integer := rest } = n.setStack .integer rest := fun _ => rfl
    simp only [hq]
    cases hs : (m.setStack .integer rest).stack k with
    | nil => rw [hp.nil hs]; exact h
    | cons x xs =>
      obtain ⟨y, ys, hs', hxy, hxs⟩ := hp.cons hs
      rw [hs']
      refine hp.setStack ?_
      rw [hact, hact, List.map_cons, List.map_cons, hxy, hxs]

theorem defineTop_alike (h : m.Alike f m') : (defineTop k m).Alike f Eq (defineTop k m') := by
  unfold defineTop
  rw [h.name]
  cases m'.name with
  | nil => exact .next h
  | cons key names =>
    have hp : (m.setStack .name names).Alike f (m'.setStack .name names) := h.setStack rfl
    have hq : ∀ n : Machine ρ, { n with name := names } = n.setStack .name names := fun _ => rfl
    simp only [hq]
    cases hs : (m.setStack .name names).stack k with
    | nil => rw [hp.nil hs]; exact .next h
    | cons x xs =>
      obtain ⟨y, ys, hs', hxy, hxs⟩ := hp.cons hs
      have hpopped := hp.setStack hxs
      rw [hs']
      rcases Tree.ofItem_alike hxy with ⟨t, u, ht, hu, htu⟩ | ⟨e, hx, hy⟩
      · simp only [ht, hu]
        exact .next ⟨hpopped.stack, Bindings.fold_bind hpopped.bindings key htu, hpopped.quoting, hpopped.supply⟩
      · simp only [hx, hy]
        exact .stop rfl hpopped

/-- Trees are compared on EXEC and CODE only. -/
theorem equalTop_alike (o : Options) (h : m.Alike f m') (hk : (Instruction.stack k .equal).comparesTrees = false) :
    (equalTop o k m).Alike f (equalTop o k m') := by
  have hsame : k.fold f = id → (equalTop o k m).Alike f (equalTop o k m') := by
    intro hid
    rw [equalTop_eq, equalTop_eq]
    refine h.merge (k := .boolean) (fun _ _ _ _ _ _ => rfl) fun x y z w hxy hzw => ?_
    rw [hid] at hxy hzw
    rw [show x = y from hxy, show z = w from hzw]
  cases k with
  | integer | float | boolean | name => exact hsame rfl
  | exec | code => cases hk

theorem run_alike (o : Options) (h : m.Alike f m') {op : StackOp}
    (hc : (Instruction.stack k op).comparesTrees = false) : (op.run o k m).Alike f Eq (op.run o k m') := by
  have harrange : ∀ {act : Stack k.Item → Stack k.Item},
      (∀ xs, (act xs).map (k.fold f) = act (xs.map (k.fold f))) →
      (m.setStack k (act (m.stack k))).Alike f (m'.setStack k (act (m'.stack k))) := fun hact =>
    h.setStack (by rw [hact, hact, h.stack k])
  cases op with
  | equal => exact .next (equalTop_alike o h hc)
  | define => exact defineTop_alike h
  | dup => exact .next (harrange (Stack.map_dup _))
  | flush => exact .next (h.setStack rfl)
  | pop => exact .next (harrange fun _ => List.map_tail)
  | rot => exact .next (harrange (Stack.map_rot _))
  | swap => exact .next (harrange (Stack.map_swap _))
  | shove => exact .next (withDepth_alike h fun d xs => Stack.map_shoveTop _ d xs)
  | yank => exact .next (withDepth_alike h fun d xs => Stack.map_yank _ d xs)
  | yankdup => exact .next (withDepth_alike h fun d xs => Stack.map_yankdup _ d xs)
  | stackdepth =>
    have hlen : (m.stack k).length = (m'.stack k).length := by simpa using congrArg List.length (h.stack k)
    simp only [run, hlen]
    split
    · exact .next (h.push (k := .integer) rfl)
    · exact .next h

end StackOp
end Manipulations

section Literals

variable {m m' : Machine ρ}

theorem FloatOp.ofInteger_alike (h : m.Alike f m') : (ofInteger m).Alike f Eq (ofInteger m') := by
  unfold ofInteger
  rw [h.integer]
  cases m'.integer with
  | nil => exact .next h
  | cons n rest =>
    have hp : (m.setStack .integer rest).Alike f (m'.setStack .integer rest) := h.setStack rfl
    dsimp only
    cases Number.floatOfInt? n with
    | none => exact .stop rfl hp
    | some x => exact .next (hp.push (k := .float) (x := x) rfl)

variable [RandomSource ρ]

theorem IntegerOp.run_alike (o : Options) (h : m.Alike f m') (op : IntegerOp) : (op.run o m).Alike f (op.run o m') := by
  cases op with
  | add | sub | mul | max | min => simp only [run, binary_eq]; exact h.mergeLiteral rfl _ _
  | div | mod => simp only [run, divide_eq]; exact h.mergeLiteral rfl _ _
  | less | greater => simp only [run, compare_eq]; exact h.mergeLiteral rfl _ _
  | fromBoolean => simp only [run, ofBoolean_eq]; exact h.moveLiteral rfl _ _
  | fromFloat => simp only [run, ofFloat_eq]; exact h.moveLiteral rfl _ _
  | rand =>
    simp only [run, random, h.supply]
    exact h.pushDrawn (k := .integer) _ _

theorem FloatOp.run_alike (o : Options) (h : m.Alike f m') (op : FloatOp) :
    (op.run o m).Alike f Eq (op.run o m') := by
  cases op with
  | add | sub | mul | max | min => simp only [run, binary_eq]; exact .next (h.mergeLiteral rfl _ _)
  | div | mod => simp only [run, divide_eq]; exact .next (h.mergeLiteral rfl _ _)
  | less | greater => simp only [run, compare_eq]; exact .next (h.mergeLiteral rfl _ _)
  | sin | cos | tan => simp only [run, unary_eq]; exact .next (h.moveLiteral rfl _ _)
  | fromBoolean => simp only [run, ofBoolean_eq]; exact .next (h.moveLiteral rfl _ _)
  | fromInteger => exact ofInteger_alike h
  | rand =>
    simp only [run, random, h.supply]
    exact .next (h.pushDrawn (k := .float) _ _)

theorem BooleanOp.run_alike (h : m.Alike f m') (op : BooleanOp) : (op.run m).Alike f (op.run m') := by
  cases op with
  | and | or => simp only [run, binary_eq]; exact h.mergeLiteral rfl _ _
  | not => simp only [run, negate_eq]; exact h.moveLiteral rfl _ _
  | fromFloat => simp only [run, ofFloat_eq]; exact h.moveLiteral rfl _ _
  | fromInteger => simp only [run, ofInteger_eq]; exact h.moveLiteral rfl _ _
  | rand =>
    simp only [run, random, h.supply]
    exact h.pushDrawn (k := .boolean) _ _

theorem NameOp.run_alike (h : m.Alike f m') (op : NameOp) : (op.run m).Alike f Eq (op.run m') := by
  cases op with
  | quote => exact .next ⟨h.stack, h.bindings, rfl, h.supply⟩
  | rand =>
    simp only [run, newName, h.supply]
    rcases Supply.newName m'.supply with ⟨e | name, supply⟩
    · exact .stop rfl (h.withSupply supply)
    · exact .next (h.pushDrawn (k := .name) name supply)
  | randBoundName =>
    simp only [run, boundName, h.supply, h.names]
    cases m'.bindings.names with
    | nil => exact .next h
    | cons name names => exact .next (h.pushDrawn (k := .name) _ _)

end Literals

section Code

variable {m m' : Machine ρ}

theorem Machine.Alike.exec (h : m.Alike f m') : m.exec.map (Tree.mapTokens f) = m'.exec.map (Tree.mapTokens f) :=
  h.stack .exec

theorem Machine.Alike.code (h : m.Alike f m') : m.code.map (Tree.mapTokens f) = m'.code.map (Tree.mapTokens f) :=
  h.stack .code

theorem Machine.Alike.withExec (h : m.Alike f m') {xs ys : List Tree}
    (hxs : xs.map (Tree.mapTokens f) = ys.map (Tree.mapTokens f)) :
    Alike f { m with exec := xs } { m' with exec := ys } := h.setStack (k := .exec) hxs

theorem Machine.Alike.withCode (h : m.Alike f m') {xs ys : List Tree}
    (hxs : xs.map (Tree.mapTokens f) = ys.map (Tree.mapTokens f)) :
    Alike f { m with code := xs } { m' with code := ys } := h.setStack (k := .code) hxs

namespace ExecOp

theorem choice_alike (h : m.Alike f m') : (choice m).Alike f (choice m') := by
  have he := h.exec
  unfold choice
  rw [h.boolean]
  rcases m'.boolean with _ | ⟨c, booleans⟩
  · exact h
  have hp : (m.setStack .boolean booleans).Alike f (m'.setStack .boolean booleans) := h.setStack rfl
  generalize m.exec = xs at he ⊢
  generalize m'.exec = ys at he ⊢
  rcases xs with _ | ⟨a, _ | ⟨b, rest⟩⟩ <;> rcases ys with _ | ⟨a', _ | ⟨b', rest'⟩⟩ <;>
    simp only [List.map_nil, List.map_cons, reduceCtorEq, List.cons.injEq, and_false] at he
  · exact h
  · exact h
  · obtain ⟨ha, hb, hrest⟩ := he
    refine hp.withExec ?_
    cases c <;> simp [ha, hb, hrest]

theorem distribute_alike (o : Options) (h : m.Alike f m') : (distribute o m).Alike f (distribute o m') := by
  have he := h.exec
  unfold distribute
  generalize m.exec = xs at he ⊢
  generalize m'.exec = ys at he ⊢
  rcases xs with _ | ⟨a, _ | ⟨b, _ | ⟨c, rest⟩⟩⟩ <;> rcases ys with _ | ⟨a', _ | ⟨b', _ | ⟨c', rest'⟩⟩⟩ <;>
    simp only [List.map_nil, List.map_cons, reduceCtorEq, List.cons.injEq, and_false] at he
  · exact h
  · exact h
  · exact h
  · obtain ⟨ha, hb, hc, hrest⟩ := he
    have hpair : (Tree.list [b, c]).Like f (.list [b', c']) := .list (by simp [hb, hc])
    simp only [hpair.fits o]
    split
    · exact h.withExec (by simp [ha, hb, hc, hrest])
    · exact h

theorem recur_alike (o : Options) (h : m.Alike f m') : (recur o m).Alike f (recur o m') := by
  have he := h.exec
  unfold recur
  generalize m.exec = xs at he ⊢
  generalize m'.exec = ys at he ⊢
  rcases xs with _ | ⟨a, rest⟩ <;> rcases ys with _ | ⟨a', rest'⟩ <;>
    simp only [List.map_nil, List.map_cons, reduceCtorEq, List.cons.injEq] at he
  · exact h
  · have hpair : (Tree.list [recurToken, a]).Like f (.list [recurToken, a']) := .list (by simp [he.1])
    simp only [hpair.fits o]
    split
    · exact h.withExec (by simp [he.1, he.2])
    · exact h

theorem range_alike (o : Options) (h : m.Alike f m') : (range o m).Alike f Eq (range o m') := by
  have he := h.exec
  unfold range
  rw [h.integer]
  rcases m'.integer with _ | ⟨last, _ | ⟨current, integers⟩⟩
  · exact .next h
  · exact .next h
  generalize m.exec = xs at he ⊢
  generalize m'.exec = ys at he ⊢
  rcases xs with _ | ⟨body, rest⟩ <;> rcases ys with _ | ⟨body', rest'⟩ <;>
    simp only [List.map_nil, List.map_cons, reduceCtorEq, List.cons.injEq] at he
  · exact .next h
  · have hp : (m.setStack .integer (current :: integers)).Alike f (m'.setStack .integer (current :: integers)) :=
      h.setStack rfl
    have hbody : body.Like f body' := he.1
    dsimp only
    split
    · exact .next (hp.withExec (by simp [he.1, he.2]))
    · generalize (if current < last then current + 1 else current - 1) = next
      rcases hbody.buildLoop next last with ⟨loop, loop', ht, hu, hloop⟩ | ⟨e, ht, hu⟩
      · have hmap : loop.mapTokens f = loop'.mapTokens f := hloop
        simp only [ht, hu, hloop.fits o]
        split
        · exact .next (hp.withExec (by simp [he.1, he.2, hmap]))
        · exact .next h
      · simp only [ht, hu]
        exact .stop rfl h

theorem countWith_alike (o : Options) (h : m.Alike f m') {wrapBody : Tree → Tree}
    (hwrap : ∀ t u : Tree, t.Like f u → (wrapBody t).Like f (wrapBody u)) :
    (countWith o wrapBody m).Alike f Eq (countWith o wrapBody m') := by
  have he := h.exec
  unfold countWith
  rw [h.integer]
  rcases m'.integer with _ | ⟨n, integers⟩
  · exact .next h
  generalize m.exec = xs at he ⊢
  generalize m'.exec = ys at he ⊢
  rcases xs with _ | ⟨body, rest⟩ <;> rcases ys with _ | ⟨body', rest'⟩ <;>
    simp only [List.map_nil, List.map_cons, reduceCtorEq, List.cons.injEq] at he
  · exact .next h
  · have hp : (m.setStack .integer integers).Alike f (m'.setStack .integer integers) := h.setStack rfl
    dsimp only
    split
    · exact .next h
    · rcases (hwrap body body' he.1).buildLoop 0 (n - 1) with ⟨loop, loop', ht, hu, hloop⟩ | ⟨e, ht, hu⟩
      · have hmap : loop.mapTokens f = loop'.mapTokens f := hloop
        simp only [ht, hu, hloop.fits o]
        split
        · exact .next (hp.withExec (by simp [he.2, hmap]))
        · exact .next h
      · simp only [ht, hu]
        exact .stop rfl h

theorem run_alike (o : Options) (h : m.Alike f m') (op : ExecOp) : (op.run o m).Alike f Eq (op.run o m') := by
  cases op with
  | choose => exact .next (choice_alike h)
  | k =>
    simp only [run, constant_eq]
    exact .next (h.merge (fun _ _ _ _ _ _ => rfl) fun _ _ _ _ _ hzw => hzw)
  | s => exact .next (distribute_alike o h)
  | y => exact .next (recur_alike o h)
  | doRange => exact range_alike o h
  | doCount => exact countWith_alike o h fun _ _ ht => ht
  | doTimes => exact countWith_alike o h fun _ _ ht => ht.withoutIndex

end ExecOp

namespace CodeOp

theorem pickItem_alike (h : m.Alike f m') : (pickItem m).Alike f (pickItem m') := by
  have hc := h.code
  unfold pickItem
  rw [h.integer]
  rcases m'.integer with _ | ⟨n, integers⟩
  · exact h
  generalize m.code = xs at hc ⊢
  generalize m'.code = ys at hc ⊢
  rcases xs with _ | ⟨top, rest⟩ <;> rcases ys with _ | ⟨top', rest'⟩ <;>
    simp only [List.map_nil, List.map_cons, reduceCtorEq, List.cons.injEq] at hc
  · exact h
  · have hp : (m.setStack .integer integers).Alike f (m'.setStack .integer integers) := h.setStack rfl
    have hitem : (item n top).mapTokens f = (item n top').mapTokens f := Tree.Like.item hc.1 n
    exact hp.withCode (by simp [hitem, hc.2])

theorem pushDefinition_alike (h : m.Alike f m') : (pushDefinition m).Alike f (pushDefinition m') := by
  unfold pushDefinition
  rw [h.name]
  rcases m'.name with _ | ⟨name, names⟩
  · exact h
  have hp : (m.setStack .name names).Alike f (m'.setStack .name names) := h.setStack rfl
  dsimp only
  cases hl : m.bindings.lookup name with
  | none =>
    rw [Bindings.lookup_none h.bindings hl]
    exact h
  | some t =>
    obtain ⟨u, hu, htu⟩ := Bindings.lookup_some h.bindings hl
    rw [hu]
    exact hp.push (k := .code) htu

theorem executeTop_alike (h : m.Alike f m') : (executeTop m).Alike f (executeTop m') := by
  have hc := h.code
  unfold executeTop
  generalize m.code = xs at hc ⊢
  generalize m'.code = ys at hc ⊢
  rcases xs with _ | ⟨top, rest⟩ <;> rcases ys with _ | ⟨top', rest'⟩ <;>
    simp only [List.map_nil, List.map_cons, reduceCtorEq, List.cons.injEq] at hc
  · exact h
  · obtain ⟨htop, hrest⟩ := hc
    have hcode : (top :: rest).map (Tree.mapTokens f) = (top' :: rest').map (Tree.mapTokens f) := by
      simp [htop, hrest]
    have hexec : (top :: popToken :: m.exec).map (Tree.mapTokens f) =
        (top' :: popToken :: m'.exec).map (Tree.mapTokens f) := by
      simp [htop, h.exec]
    exact (h.withCode hcode).withExec hexec

theorem choice_alike (h : m.Alike f m') : (choice m).Alike f (choice m') := by
  have hc := h.code
  unfold choice
  rw [h.boolean]
  rcases m'.boolean with _ | ⟨c, booleans⟩
  · exact h
  have hp : (m.setStack .boolean booleans).Alike f (m'.setStack .boolean booleans) := h.setStack rfl
  generalize m.code = xs at hc ⊢
  generalize m'.code = ys at hc ⊢
  rcases xs with _ | ⟨top, _ | ⟨second, rest⟩⟩ <;> rcases ys with _ | ⟨top', _ | ⟨second', rest'⟩⟩ <;>
    simp only [List.map_nil, List.map_cons, reduceCtorEq, List.cons.injEq, and_false] at hc
  · exact h
  · exact h
  · obtain ⟨htop, hsecond, hrest⟩ := hc
    refine (hp.withCode hrest).withExec ?_
    cases c <;> simp [htop, hsecond, h.exec]

theorem ofStack_alike {k : Kind} (h : m.Alike f m') : (ofStack k m).Alike f Eq (ofStack k m') := by
  unfold ofStack
  cases hs : m.stack k with
  | nil => rw [h.nil hs]; exact .next h
  | cons x xs =>
    obtain ⟨y, ys, hs', hxy, hxs⟩ := h.cons hs
    have hp := h.setStack hxs
    simp only [hs']
    rcases Tree.ofItem_alike hxy with ⟨t, u, ht, hu, htu⟩ | ⟨e, hx, hy⟩
    · simp only [ht, hu]
      exact .next (hp.push (k := .code) htu)
    · simp only [hx, hy]
      exact .stop rfl hp

theorem binary_alike (o : Options) (h : m.Alike f m') {g : Tree → Tree → Tree}
    (hg : ∀ t u v w : Tree, t.Like f u → v.Like f w → (g t v).Like f (g u w)) :
    (binary o g m).Alike f (binary o g m') := by
  simp only [binary_eq]
  exact h.merge (fun t u v w htu hvw => (hg t u v w htu hvw).fits o) hg

variable [RandomSource ρ]

theorem random_alike (o : Options) (h : m.Alike f m') : (random o m).Alike f Eq (random o m') := by
  unfold random
  rw [h.integer, h.supply]
  rcases m'.integer with _ | ⟨n, integers⟩
  · exact .next h
  have hp : (m.setStack .integer integers).Alike f (m'.setStack .integer integers) := h.setStack rfl
  dsimp only
  split
  · exact .next h
  · rcases RandomCode.upTo o (randomLimit o n) m'.supply with ⟨e | t, supply⟩
    · exact .stop rfl (hp.withSupply supply)
    · exact .next ((hp.push (k := .code) (x := t) rfl).withSupply supply)

theorem run_alike (o : Options) (h : m.Alike f m') {op : CodeOp} (hc : (Instruction.code op).comparesTrees = false) :
    (op.run o m).Alike f Eq (op.run o m') := by
  cases op with
  | append => exact .next (binary_alike o h fun _ _ _ _ htu hvw => .list (by simp [htu.items, hvw.items]))
  | cons =>
    refine .next (binary_alike o h fun t u v w htu hvw => .list ?_)
    rw [List.map_cons, List.map_cons, hvw.items, show t.mapTokens f = u.mapTokens f from htu]
  | list =>
    refine .next (binary_alike o h fun t u v w htu hvw => .list ?_)
    simp [show t.mapTokens f = u.mapTokens f from htu, show v.mapTokens f = w.mapTokens f from hvw]
  | car =>
    simp only [run, unary_eq]
    exact .next (h.move (fun _ _ _ => rfl) fun _ _ ht => Tree.Like.first ht)
  | cdr =>
    simp only [run, unary_eq]
    exact .next (h.move (fun _ _ _ => rfl) fun _ _ ht => Tree.Like.others ht)
  | atom =>
    simp only [run, test_eq]
    exact .next (h.move (fun _ _ _ => rfl) fun _ _ ht => Tree.Like.isAtom ht)
  | null =>
    simp only [run, test_eq]
    exact .next (h.move (fun _ _ _ => rfl) fun _ _ ht => Tree.Like.isNull ht)
  | member => cases hc
  | length =>
    simp only [run, measure_eq]
    exact .next (h.move (fun _ _ _ => rfl) fun _ _ ht => congrArg Int.ofNat (Tree.Like.length_items ht))
  | size =>
    simp only [run, measure_eq]
    exact .next (h.move (fun _ _ _ => rfl) fun _ _ ht => congrArg Int.ofNat (Tree.Like.points ht))
  | nth => exact .next (pickItem_alike h)
  | definition => exact .next (pushDefinition_alike h)
  | doKeep => exact .next (executeTop_alike h)
  | doPop =>
    simp only [run, executePopped_eq]
    exact .next (h.move (fun _ _ _ => rfl) fun _ _ ht => ht)
  | choose => exact .next (choice_alike h)
  | quote =>
    simp only [run, quoteNext_eq]
    exact .next (h.move (fun _ _ ht => Tree.Like.fits ht o) fun _ _ ht => ht)
  | noop => exact .next h
  | fromBoolean | fromFloat | fromInteger | fromName => exact ofStack_alike h
  | rand => exact random_alike o h

end CodeOp
end Code

/-- **Instructions that do not compare trees take machines that are alike to machines that are alike.** -/
theorem Instruction.run_alike [RandomSource ρ] (o : Options) {m m' : Machine ρ} (h : m.Alike f m') {i : Instruction}
    (hc : i.comparesTrees = false) : (i.run o m).Alike f Eq (i.run o m') := by
  cases i with
  | stack k op => exact op.run_alike o h hc
  | integer op => exact .next (op.run_alike o h)
  | float op   => exact op.run_alike o h
  | boolean op => exact .next (op.run_alike h)
  | name op    => exact op.run_alike h
  | exec op    => exact op.run_alike o h
  | code op    => exact op.run_alike o h hc

end PushMachine
