import PushMachine.Proofs.Form
/-!
# Machines that differ in the spelling of their trees

Let `f` take a token to what is kept of it.  Two trees are alike if they are the same once `f` is applied to all their
tokens, and two machines are alike if their trees are and everything else is the same, but for the count of steps.
With the identity for `f`, machines that are alike differ in the count of steps only.
-/
namespace PushMachine

variable {ρ : Type} {f : String → String}

/-! ## Trees -/

namespace Tree

mutual

/-- The tree with another token for each of its tokens. -/
def mapTokens (f : String → String) : Tree → Tree
  | .atom token => .atom (f token)
  | .list ts    => .list (mapTokensAll f ts)

def mapTokensAll (f : String → String) : List Tree → List Tree
  | []      => []
  | t :: ts => mapTokens f t :: mapTokensAll f ts

end

theorem mapTokensAll_eq_map (f : String → String) : ∀ ts : List Tree, mapTokensAll f ts = ts.map (mapTokens f)
  | []      => rfl
  | t :: ts => by rw [mapTokensAll, mapTokensAll_eq_map f ts, List.map_cons]

@[simp] theorem mapTokens_atom (f : String → String) (token : String) :
    mapTokens f (.atom token) = .atom (f token) := rfl

@[simp] theorem mapTokens_list (f : String → String) (ts : List Tree) :
    mapTokens f (.list ts) = .list (ts.map (mapTokens f)) := by
  rw [mapTokens, mapTokensAll_eq_map]

mutual

theorem nodes_mapTokens : ∀ (f : String → String) (t : Tree), (t.mapTokens f).nodes = t.nodes
  | _, .atom _  => rfl
  | f, .list ts => by rw [mapTokens, nodes, nodes, nodesAll_mapTokens f ts]

theorem nodesAll_mapTokens : ∀ (f : String → String) (ts : List Tree), nodesAll (mapTokensAll f ts) = nodesAll ts
  | _, []      => rfl
  | f, t :: ts => by rw [mapTokensAll, nodesAll, nodesAll, nodes_mapTokens f t, nodesAll_mapTokens f ts]

end

theorem mapTokens_id : ∀ t : Tree, t.mapTokens id = t
  | .atom _  => rfl
  | .list ts => by rw [mapTokens_list, List.map_congr_left fun t _ => mapTokens_id t, List.map_id']

theorem items_mapTokens (f : String → String) (t : Tree) : (t.mapTokens f).items = t.items.map (mapTokens f) := by
  cases t with
  | atom token => rfl
  | list ts => rw [mapTokens_list]; rfl

/-- The same tree but for the spelling of its tokens. -/
def Like (f : String → String) (t u : Tree) : Prop := t.mapTokens f = u.mapTokens f

namespace Like

variable {t u : Tree}

theorem refl (f : String → String) (t : Tree) : t.Like f t := rfl

theorem list {ts us : List Tree} (h : ts.map (mapTokens f) = us.map (mapTokens f)) : (Tree.list ts).Like f (.list us) := by
  rw [Like, mapTokens_list, mapTokens_list, h]

theorem atom_left {token : String} (h : (Tree.atom token).Like f u) : ∃ other, u = .atom other ∧ f token = f other := by
  cases u with
  | atom other => exact ⟨other, rfl, Tree.atom.inj h⟩
  | list us => rw [Like, mapTokens_list] at h; cases h

theorem list_left {ts : List Tree} (h : (Tree.list ts).Like f u) :
    ∃ us, u = .list us ∧ ts.map (mapTokens f) = us.map (mapTokens f) := by
  cases u with
  | atom other => rw [Like, mapTokens_list] at h; cases h
  | list us => rw [Like, mapTokens_list, mapTokens_list] at h; exact ⟨us, rfl, Tree.list.inj h⟩

theorem items (h : t.Like f u) : t.items.map (mapTokens f) = u.items.map (mapTokens f) := by
  rw [← items_mapTokens, ← items_mapTokens, h]

theorem length_items (h : t.Like f u) : t.items.length = u.items.length := by
  simpa using congrArg List.length h.items

theorem points (h : t.Like f u) : t.points = u.points := by
  rw [points_eq_nodes, points_eq_nodes, ← nodes_mapTokens f t, ← nodes_mapTokens f u, h]

theorem fits (h : t.Like f u) (o : Options) : o.fits t = o.fits u := by
  simp only [Options.fits, h.points]

theorem isAtom (h : t.Like f u) : t.isAtom = u.isAtom := by
  cases t with
  | atom token => obtain ⟨other, rfl, -⟩ := h.atom_left; rfl
  | list ts => obtain ⟨us, rfl, -⟩ := h.list_left; rfl

theorem isNull (h : t.Like f u) : (t == .list []) = (u == .list []) := by
  cases t with
  | atom token => obtain ⟨other, rfl, -⟩ := h.atom_left; rfl
  | list ts =>
    obtain ⟨us, rfl, hus⟩ := h.list_left
    cases ts with
    | nil => rw [List.map_eq_nil_iff.1 hus.symm]
    | cons t ts =>
      obtain ⟨u, us, rfl, -⟩ := List.exists_cons_of_ne_nil (l := us) fun h0 => by simp [h0] at hus
      rfl

theorem getD_items (h : t.Like f u) (n : Nat) : (t.items.getD n (.list [])).Like f (u.items.getD n (.list [])) := by
  have hget := congrArg (·[n]?) h.items
  simp only [List.getElem?_map] at hget
  rw [List.getD_eq_getElem?_getD, List.getD_eq_getElem?_getD]
  cases ht : t.items[n]? <;> cases hu : u.items[n]? <;> simp only [ht, hu, Option.map_some, Option.map_none,
    reduceCtorEq, Option.some.injEq] at hget
  · exact .refl f _
  · exact hget

theorem others (h : t.Like f u) : (CodeOp.others t).Like f (CodeOp.others u) := by
  apply list
  rw [List.map_tail, List.map_tail, h.items]

theorem first (h : t.Like f u) : (CodeOp.first t).Like f (CodeOp.first u) := by
  have hhead : ∀ t : Tree, CodeOp.first t = t.items.getD 0 (.list []) := by
    intro t
    unfold CodeOp.first
    cases t.items <;> rfl
  rw [hhead, hhead]
  exact h.getD_items 0

theorem item (h : t.Like f u) (n : Int) : (CodeOp.item n t).Like f (CodeOp.item n u) := by
  rw [CodeOp.item, CodeOp.item, h.length_items]
  exact h.getD_items _

theorem rangeLoop (h : t.Like f u) (current last : Int) :
    (ExecOp.rangeLoop current last t).Like f (ExecOp.rangeLoop current last u) := by
  apply list
  simp [show t.mapTokens f = u.mapTokens f from h]

/-- Whether a loop can be built does not depend on its body. -/
theorem buildLoop (h : t.Like f u) (current last : Int) :
    (∃ loop loop', ExecOp.buildLoop current last t = .ok loop ∧ ExecOp.buildLoop current last u = .ok loop' ∧
      loop.Like f loop') ∨
    ∃ e, ExecOp.buildLoop current last t = .error e ∧ ExecOp.buildLoop current last u = .error e := by
  rw [ExecOp.buildLoop_eq, ExecOp.buildLoop_eq]
  split
  · exact .inl ⟨_, _, rfl, rfl, h.rangeLoop current last⟩
  · exact .inr ⟨_, rfl, rfl⟩

theorem withoutIndex (h : t.Like f u) : (ExecOp.withoutIndex t).Like f (ExecOp.withoutIndex u) := by
  apply list
  rw [List.map_cons, List.map_cons, h.items]

end Like
end Tree

/-! ## Machines -/

/-- What is kept of an item: all of it, or the tree with what is kept of its tokens. -/
def Kind.fold (f : String → String) : (k : Kind) → k.Item → k.Item
  | .integer, n => n
  | .float,   x => x
  | .boolean, b => b
  | .name,    s => s
  | .exec,    t => t.mapTokens f
  | .code,    t => t.mapTokens f

def Bindings.fold (f : String → String) (b : Bindings) : List (String × Tree) :=
  b.entries.map fun e => (e.1, e.2.mapTokens f)

/-- **The same machine but for the spelling of its trees and the count of its steps.** -/
structure Machine.Alike (f : String → String) (m m' : Machine ρ) : Prop where
  stack    : ∀ k, (m.stack k).map (k.fold f) = (m'.stack k).map (k.fold f)
  bindings : m.bindings.fold f = m'.bindings.fold f
  quoting  : m.quoting = m'.quoting
  supply   : m.supply = m'.supply

namespace Machine.Alike

variable {m m' : Machine ρ} {j k : Kind}

theorem refl (f : String → String) (m : Machine ρ) : m.Alike f m := ⟨fun _ => rfl, rfl, rfl, rfl⟩

theorem literal (h : m.Alike f m') (hk : k.fold f = id) : m.stack k = m'.stack k := by
  have hs := h.stack k
  rwa [hk, List.map_id, List.map_id] at hs

theorem integer (h : m.Alike f m') : m.integer = m'.integer := h.literal (k := .integer) rfl

theorem boolean (h : m.Alike f m') : m.boolean = m'.boolean := h.literal (k := .boolean) rfl

theorem name (h : m.Alike f m') : m.name = m'.name := h.literal (k := .name) rfl

theorem names (h : m.Alike f m') : m.bindings.names = m'.bindings.names := by
  have hkeys := congrArg (List.map Prod.fst) h.bindings
  rw [Bindings.fold, Bindings.fold, List.map_map, List.map_map] at hkeys
  exact hkeys

theorem nil (h : m.Alike f m') (hs : m.stack k = []) : m'.stack k = [] := by
  have hk := h.stack k
  rw [hs] at hk
  exact List.map_eq_nil_iff.1 hk.symm

theorem cons (h : m.Alike f m') {x : k.Item} {xs : Stack k.Item} (hs : m.stack k = x :: xs) :
    ∃ y ys, m'.stack k = y :: ys ∧ k.fold f x = k.fold f y ∧ xs.map (k.fold f) = ys.map (k.fold f) := by
  have hk := h.stack k
  rw [hs, List.map_cons] at hk
  obtain ⟨y, ys, hs', hy, hys⟩ := List.map_eq_cons_iff.1 hk.symm
  exact ⟨y, ys, hs', hy.symm, hys.symm⟩

theorem setStack (h : m.Alike f m') {xs ys : Stack k.Item} (hxs : xs.map (k.fold f) = ys.map (k.fold f)) :
    (m.setStack k xs).Alike f (m'.setStack k ys) := by
  refine ⟨fun j => ?_, h.bindings, h.quoting, h.supply⟩
  by_cases hj : j = k
  · subst hj
    rw [stack_setStack_self, stack_setStack_self]
    exact hxs
  · rw [stack_setStack_of_ne m hj, stack_setStack_of_ne m' hj]
    exact h.stack j

theorem push (h : m.Alike f m') {x y : k.Item} (hx : k.fold f x = k.fold f y) :
    (m.setStack k (x :: m.stack k)).Alike f (m'.setStack k (y :: m'.stack k)) :=
  h.setStack (by rw [List.map_cons, List.map_cons, hx, h.stack k])

theorem withSupply (h : m.Alike f m') (supply : Supply ρ) :
    Alike f { m with supply := supply } { m' with supply := supply } := ⟨h.stack, h.bindings, h.quoting, rfl⟩

/-! Both forms may look at what is kept of the items, and at nothing else. -/

theorem move (h : m.Alike f m') {accepts : j.Item → Bool} {g : j.Item → k.Item}
    (ha : ∀ x y, j.fold f x = j.fold f y → accepts x = accepts y)
    (hg : ∀ x y, j.fold f x = j.fold f y → k.fold f (g x) = k.fold f (g y)) :
    (m.move j k accepts g).Alike f (m'.move j k accepts g) := by
  unfold Machine.move
  cases hs : m.stack j with
  | nil => rw [h.nil hs]; exact h
  | cons x xs =>
    obtain ⟨y, ys, hs', hxy, hxs⟩ := h.cons hs
    simp only [hs', ha x y hxy]
    split
    · exact (h.setStack hxs).push (hg x y hxy)
    · exact h

theorem merge (h : m.Alike f m') {accepts : j.Item → j.Item → Bool} {g : j.Item → j.Item → k.Item}
    (ha : ∀ x y z w, j.fold f x = j.fold f y → j.fold f z = j.fold f w → accepts x z = accepts y w)
    (hg : ∀ x y z w, j.fold f x = j.fold f y → j.fold f z = j.fold f w → k.fold f (g x z) = k.fold f (g y w)) :
    (m.merge j k accepts g).Alike f (m'.merge j k accepts g) := by
  unfold Machine.merge
  cases hs : m.stack j with
  | nil => rw [h.nil hs]; exact h
  | cons b xs =>
    obtain ⟨b', ys, hs', hb, hxs⟩ := h.cons hs
    rw [hs']
    cases xs with
    | nil => rw [List.map_eq_nil_iff.1 hxs.symm]; exact h
    | cons a xs =>
      obtain ⟨a', ys, rfl, haa, hys⟩ := List.map_eq_cons_iff.1 hxs.symm
      simp only [ha a a' b b' haa.symm hb]
      split
      · exact (h.setStack hys.symm).push (hg a a' b b' haa.symm hb)
      · exact h

/-- A form on a stack of literals may be any. -/
theorem moveLiteral (h : m.Alike f m') (hj : j.fold f = id) (accepts : j.Item → Bool)
    (g : j.Item → k.Item) : (m.move j k accepts g).Alike f (m'.move j k accepts g) := by
  refine h.move (fun x y hxy => ?_) fun x y hxy => ?_ <;>
    (rw [hj] at hxy; rw [show x = y from hxy])

theorem mergeLiteral (h : m.Alike f m') (hj : j.fold f = id)
    (accepts : j.Item → j.Item → Bool) (g : j.Item → j.Item → k.Item) :
    (m.merge j k accepts g).Alike f (m'.merge j k accepts g) := by
  refine h.merge (fun x y z w hxy hzw => ?_) fun x y z w hxy hzw => ?_ <;>
    (rw [hj] at hxy hzw; rw [show x = y from hxy, show z = w from hzw])

theorem pushDrawn (h : m.Alike f m') (x : k.Item) (supply : Supply ρ) :
    (m.pushDrawn k x supply).Alike f (m'.pushDrawn k x supply) := (h.push (x := x) rfl).withSupply supply

end Machine.Alike

/-- Outcomes of machines that are alike, for causes that are related. -/
inductive Outcome.Alike {ε : Type} (f : String → String) (C : ε → ε → Prop) : Outcome ε ρ → Outcome ε ρ → Prop
  | next {m m' : Machine ρ} : m.Alike f m' → Alike f C (.next m) (.next m')
  | stop {m m' : Machine ρ} {c c' : ε} : C c c' → m.Alike f m' → Alike f C (.stop c m) (.stop c' m')

/-! ## Bindings -/

namespace Bindings

theorem find?_fold (f : String → String) (key : String) : ∀ es : List (String × Tree),
    find? key (es.map fun e => (e.1, e.2.mapTokens f)) = (find? key es).map (Tree.mapTokens f)
  | []           => rfl
  | (k, t) :: es => by
    by_cases h : k = key
    · simp [find?, h]
    · simp [find?, h, find?_fold f key es]

theorem put_fold (f : String → String) (key : String) (t : Tree) : ∀ es : List (String × Tree),
    (put key t es).map (fun e => (e.1, e.2.mapTokens f)) = put key (t.mapTokens f) (es.map fun e => (e.1, e.2.mapTokens f))
  | []           => rfl
  | (k, u) :: es => by
    by_cases h : k = key
    · simp [put, h]
    · simp [put, h, put_fold f key t es]

variable {b b' : Bindings}

theorem fold_bind (h : b.fold f = b'.fold f) (name : String) {t u : Tree} (ht : t.Like f u) :
    (b.bind name t).fold f = (b'.bind name u).fold f := by
  unfold fold at h ⊢
  simp only [bind, put_fold, h]
  rw [show t.mapTokens f = u.mapTokens f from ht]

theorem lookup_fold (h : b.fold f = b'.fold f) (name : String) :
    (b.lookup name).map (Tree.mapTokens f) = (b'.lookup name).map (Tree.mapTokens f) := by
  unfold fold at h
  rw [lookup, lookup, ← find?_fold, ← find?_fold, h]

theorem lookup_none (h : b.fold f = b'.fold f) {name : String} (hl : b.lookup name = none) : b'.lookup name = none := by
  have hn := lookup_fold h name
  rw [hl] at hn
  exact Option.map_eq_none_iff.1 hn.symm

theorem lookup_some (h : b.fold f = b'.fold f) {name : String} {t : Tree} (hl : b.lookup name = some t) :
    ∃ u, b'.lookup name = some u ∧ t.Like f u := by
  have hn := lookup_fold h name
  rw [hl] at hn
  obtain ⟨u, hu, htu⟩ := Option.map_eq_some_iff.1 hn.symm
  exact ⟨u, hu, htu.symm⟩

end Bindings

end PushMachine
