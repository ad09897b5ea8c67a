import Mathlib.Logic.Relation
import PushMachine.Proofs.Grammar
import PushMachine.Proofs.RoundTrip
import PushMachine.Proofs.Weight
/-!
# Points and texts by recursion

The points of a tree are counted, and its text is written, with a list of what is still to do.  Both come to what
recursion on the tree says (`text_list`, `pointsAll_eq_sum`).  For the points it does not even matter which of the trees
still to visit is taken next: a visit counts one point and takes one off what is left (`Visit.points`), so every way of
counting ends after as many visits as the tree has points, and the count that runs is one of them (`counted`,
`visits_pointsFrom`).  A parsed text says how many these are: every lexeme but a closing parenthesis is a point
(`Items.countP_eq`).
-/
namespace PushMachine
namespace Tree

/-! ## Texts -/

theorem renderedAll_eq_intercalate : ∀ ts : List Tree, renderedAll false ts = [' '].intercalate (ts.map rendered)
  | []           => rfl
  | [t]          => by simp [renderedAll]
  | t :: u :: us => by
    have ih := renderedAll_eq_intercalate (u :: us)
    have hgap : renderedAll true (u :: us) = ' ' :: renderedAll false (u :: us) := by
      rw [renderedAll, renderedAll]
      rfl
    rw [renderedAll, hgap, ih]
    simp

/-- **The text of a list** is that of its items, one space apart, between parentheses. -/
theorem text_list (ts : List Tree) : text (.list ts) = "(" ++ " ".intercalate (ts.map text) ++ ")" := by
  have hitems : (ts.map text).map String.toList = ts.map rendered := by
    rw [List.map_map]
    exact List.map_congr_left fun t _ => toList_text t
  rw [← String.toList_inj, toList_text, rendered, renderedAll_eq_intercalate, String.toList_append,
    String.toList_append, String.toList_intercalate, hitems]
  rfl

theorem text_atom (token : String) : text (.atom token) = token := by
  rw [← String.toList_inj, toList_text, rendered]

/-! ## Counting in any order -/

/-- One visit, with the points counted so far and the trees still to visit: any one of these is counted, and its items
are left to visit along with the others, in any order. -/
inductive Visit : Nat × List Tree → Nat × List Tree → Prop
  | atom {n : Nat} {token : String} {us ts : List Tree} :
      us.Perm (.atom token :: ts) → Visit (n, us) (n + 1, ts)
  | list {n : Nat} {items us ts vs : List Tree} :
      us.Perm (.list items :: ts) → vs.Perm (items ++ ts) → Visit (n, us) (n + 1, vs)

/-- **A visit counts one point and takes one off what is left.** -/
theorem Visit.points {s s' : Nat × List Tree} (h : Visit s s') :
    s'.1 = s.1 + 1 ∧ pointsAll s.2 = pointsAll s'.2 + 1 := by
  cases h with
  | atom hus =>
    refine ⟨rfl, ?_⟩
    rw [pointsAll_perm hus, pointsAll_cons, points_atom, Nat.add_comm]
  | list hus hvs =>
    refine ⟨rfl, ?_⟩
    rw [pointsAll_perm hus, pointsAll_perm hvs, pointsAll_cons, points_list, pointsAll_append]
    omega

theorem exists_visit {s : Nat × List Tree} (h : s.2 ≠ []) : ∃ s', Visit s s' := by
  obtain ⟨n, us⟩ := s
  obtain ⟨t, ts, rfl⟩ := List.exists_cons_of_ne_nil h
  cases t with
  | atom token => exact ⟨_, .atom (.refl _)⟩
  | list items => exact ⟨_, .list (.refl _) (.refl _)⟩

/-- What was counted and what is left are always as much together. -/
theorem points_of_visits {s s' : Nat × List Tree} (h : Relation.ReflTransGen Visit s s') :
    s.1 + pointsAll s.2 = s'.1 + pointsAll s'.2 := by
  induction h with
  | refl => rfl
  | tail _ hvisit ih =>
    obtain ⟨hcount, hleft⟩ := hvisit.points
    omega

/-- No counting goes on for ever. -/
theorem wellFounded_visit : WellFounded fun s s' => Visit s' s :=
  Subrelation.wf (fun h => Nat.lt_of_succ_le (Nat.le_of_eq h.points.2.symm))
    (measure fun s : Nat × List Tree => pointsAll s.2).wf

/-- The count that runs is one of these: it visits the first of the trees that are left, and then its items. -/
theorem visits_pointsFrom (total : Nat) (ts : List Tree) :
    Relation.ReflTransGen Visit (total, ts) (pointsFrom total ts, []) := by
  fun_induction pointsFrom total ts with
  | case1 => exact .refl
  | case2 total ts token ih => exact .head (.atom (.refl _)) ih
  | case3 total ts items ih => exact .head (.list (.refl _) (.refl _)) ih

/-- **Counting a tree in any order.** -/
structure Counted (t : Tree) : Prop where
  /-- The visits come to an end. -/
  ends : Acc (fun s s' => Visit s' s) (0, [t])
  /-- They go on while a tree is left. -/
  goesOn : ∀ s, Relation.ReflTransGen Visit (0, [t]) s → s.2 ≠ [] → ∃ s', Visit s s'
  /-- After `n` of them, what is left has the other points of the tree. -/
  left : ∀ n ts, Relation.ReflTransGen Visit (0, [t]) (n, ts) → n + pointsAll ts = t.points
  /-- When nothing is left, all of them are counted. -/
  count : ∀ n, Relation.ReflTransGen Visit (0, [t]) (n, []) ↔ n = t.points

theorem counted (t : Tree) : Counted t := by
  have hleft : ∀ n ts, Relation.ReflTransGen Visit (0, [t]) (n, ts) → n + pointsAll ts = t.points := by
    intro n ts h
    have hsum := points_of_visits h
    rw [pointsAll_cons, pointsAll_nil, Nat.zero_add, Nat.add_zero] at hsum
    exact hsum.symm
  refine ⟨wellFounded_visit.apply _, fun s _ hs => exists_visit hs, hleft, fun n => ⟨fun h => ?_, ?_⟩⟩
  · have hn := hleft n [] h
    rwa [pointsAll_nil, Nat.add_zero] at hn
  · rintro rfl
    exact visits_pointsFrom 0 [t]

/-! ## The points of a parsed text -/

/-- **Every lexeme but a closing parenthesis is a point.** -/
theorem Items.countP_eq {words : List String} {ts : List Tree} (h : Items words ts) :
    words.countP (· != ")") = pointsAll ts := by
  induction h with
  | nil => rw [List.countP_nil, pointsAll_nil]
  | token htoken _ ih =>
    rw [List.countP_cons, if_pos (bne_iff_ne.2 (ne_parenthesis_of_isToken htoken).2), ih, pointsAll_cons, points_atom,
      Nat.add_comm]
  | list _ _ ih₁ ih₂ =>
    rw [List.countP_cons, if_pos (by decide), List.countP_append, List.countP_cons, if_neg (by decide), ih₁, ih₂,
      pointsAll_cons, points_list]
    omega

theorem points_ofItems (ts : List Tree) : (ofItems ts).points = pointsAll ts + if ts.length = 1 then 0 else 1 := by
  generalize ht : ofItems ts = t
  rcases eq_ofItems_iff.1 ht.symm with rfl | ⟨hlen, rfl⟩
  · rw [if_pos List.length_singleton, pointsAll_cons, pointsAll_nil]
    rfl
  · rw [if_neg hlen, points_list, Nat.add_comm]

/-- **Counting and writing with a list of what is still to do come to recursion on the tree**, in whatever order the
trees are counted.  The tree of a text has a point for every lexeme but the closing parentheses, and one more if it had
to be made of none or several items. -/
theorem points_and_text_recursive :
    (∀ token, points (.atom token) = 1 ∧ text (.atom token) = token) ∧
    (∀ ts, points (.list ts) = 1 + (ts.map points).sum ∧
      text (.list ts) = "(" ++ " ".intercalate (ts.map text) ++ ")") ∧
    (∀ t, Counted t) ∧
    ∀ program t, parse program = .ok t →
      (∃ ts, Items (Lexeme.texts program) ts) ∧
      ∀ ts, Items (Lexeme.texts program) ts →
        t.points = (Lexeme.texts program).countP (· != ")") + if ts.length = 1 then 0 else 1 := by
  refine ⟨fun token => ⟨points_atom token, text_atom token⟩, fun ts => ⟨?_, text_list ts⟩, counted, ?_⟩
  · rw [points_list, pointsAll_eq_sum]
  · intro program t h
    obtain ⟨ts, hts, rfl⟩ := parse_eq_ok_iff.1 h
    refine ⟨⟨ts, hts⟩, fun us hus => ?_⟩
    obtain rfl := hts.unique hus
    rw [points_ofItems, hts.countP_eq]

/-- A token and a list at the top level: four lexemes that close nothing, and the list of the two. -/
theorem points_and_text_recursive_several :
    let t := Tree.list [.atom "a", .list [.atom "b", .list []]]
    parse "a(b())" = .ok t ∧ t.points = 5 ∧
      t.points = (Lexeme.texts "a(b())").countP (· != ")") + 1 ∧
      text t = "(" ++ " ".intercalate [text (.atom "a"), text (.list [.atom "b", .list []])] ++ ")" := by
  intro t
  have hp : parse "a(b())" = .ok t := rfl
  have hitems : Items (Lexeme.texts "a(b())") [.atom "a", .list [.atom "b", .list []]] :=
    items_iff.2 ⟨rfl, by decide⟩
  obtain ⟨-, hlist, -, hparse⟩ := points_and_text_recursive
  have hpoints := (hparse _ _ hp).2 _ hitems
  exact ⟨hp, hpoints, hpoints, (hlist _).2⟩

end Tree
end PushMachine
