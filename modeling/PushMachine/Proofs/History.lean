import Mathlib.Data.List.Nodup
import PushMachine.Proofs.Call
import PushMachine.Proofs.Lexical
import PushMachine.Proofs.Running
import PushMachine.Random.Twister
/-!
# What a session has bound

A step binds a name exactly if it runs a `define` that finds a name and an item (`bindings_step`); no other step and no
other operation touches the bindings.  `timeline` lists the moments of a session, each with what is bound there, and the
bindings at a moment are those at the start with everything bound before it added in turn (`linked_timeline`).  So names
are only ever added, at the end, and a name means what it was last bound to (`bindings_of_timeline`).
-/
namespace PushMachine

variable {ρ : Type}

/-! ## Binding one name after the other -/

namespace Bindings

/-- The bindings once these names are bound to their trees in turn. -/
def bindAll (b : Bindings) (ds : List (String × Tree)) : Bindings := ds.foldl (fun b d => b.bind d.1 d.2) b

/-- The tree of the last of these whose name is the given one, in any case. -/
def latest (name : String) (ds : List (String × Tree)) : Option Tree :=
  (ds.reverse.find? fun d => Text.lower d.1 = Text.lower name).map (·.2)

/-- **Just one binding differs**: the name is bound to the tree, in its old place or else in a new last one. -/
structure Rebinds (b : Bindings) (name : String) (tree : Tree) (b' : Bindings) : Prop where
  names  : b'.names = if Text.lower name ∈ b.names then b.names else b.names ++ [Text.lower name]
  lookup : ∀ n, b'.lookup n = if Text.lower n = Text.lower name then some tree else b.lookup n
  others : ∀ e : String × Tree, e.1 ≠ Text.lower name → (e ∈ b'.entries ↔ e ∈ b.entries)

theorem mem_put_of_ne {key : String} {t : Tree} {e : String × Tree} (h : e.1 ≠ key) :
    ∀ es : List (String × Tree), e ∈ put key t es ↔ e ∈ es
  | []           => by
    have hne : e ≠ (key, t) := fun he => h (by rw [he])
    simp [put, hne]
  | (k, u) :: es => by
    rw [put]
    split
    · rename_i hk
      have hold : e ≠ (k, u) := fun he => h (by rw [he, ← hk])
      have hnew : e ≠ (k, t) := fun he => h (by rw [he, ← hk])
      simp [hold, hnew]
    · rw [List.mem_cons, List.mem_cons, mem_put_of_ne h es]

theorem rebinds_bind (b : Bindings) (name : String) (tree : Tree) : b.Rebinds name tree (b.bind name tree) where
  names := names_bind b name tree
  lookup n := by
    split
    · rename_i h
      exact lookup_bind_self h b tree
    · rename_i h
      exact lookup_bind_of_ne h b tree
  others _ h := mem_put_of_ne h b.entries

theorem names_prefix_bind (b : Bindings) (name : String) (tree : Tree) : b.names <+: (b.bind name tree).names := by
  rw [names_bind]
  split
  · exact List.prefix_rfl
  · exact List.prefix_append _ _

theorem names_prefix_bindAll : ∀ (ds : List (String × Tree)) (b : Bindings), b.names <+: (b.bindAll ds).names
  | [],      _ => List.prefix_rfl
  | d :: ds, b => (names_prefix_bind b d.1 d.2).trans (names_prefix_bindAll ds (b.bind d.1 d.2))

theorem latest_cons (name : String) (d : String × Tree) (ds : List (String × Tree)) :
    latest name (d :: ds)
      = (latest name ds).or (if Text.lower name = Text.lower d.1 then some d.2 else none) := by
  rw [latest, latest, List.reverse_cons, List.find?_append, Option.map_or]
  congr 1
  by_cases h : Text.lower name = Text.lower d.1
  · simp [h]
  · simp [h, Ne.symm h]

/-- **A name means what it was last bound to.** -/
theorem lookup_bindAll (name : String) : ∀ (ds : List (String × Tree)) (b : Bindings),
    (b.bindAll ds).lookup name = (latest name ds).or (b.lookup name)
  | [],      _ => rfl
  | d :: ds, b => by
    have hrest := lookup_bindAll name ds (b.bind d.1 d.2)
    rw [(rebinds_bind b d.1 d.2).lookup] at hrest
    rw [latest_cons, Option.or_assoc]
    refine hrest.trans (congrArg _ ?_)
    split <;> rfl

end Bindings

/-! ## What a step binds -/

namespace Machine

/-- What an instruction binds: the `define` of a stack binds the top name to the code of the top item. -/
def definition? (m : Machine ρ) : Instruction → Option (String × Tree)
  | .stack k .define => do
    let key ← m.name.head?
    let x ← (m.stack k).head?
    let t ← (Tree.ofItem k x).toOption
    return (key, t)
  | _ => none

/-- What executing an item binds. -/
def definedBy? (o : Options) (m : Machine ρ) (t : Tree) : Option (String × Tree) :=
  (o.instruction? t).bind m.definition?

/-- What the next step binds. -/
def defined? (o : Options) (m : Machine ρ) : Option (String × Tree) :=
  match m.exec with
  | []        => none
  | t :: rest => (m.popped rest).definedBy? o t

/-- **The next step is an effective definition**: it runs the `define` of a stack, there is a name, and there is an item
on that stack once the step's own item is popped; the name is bound to the code of the item. -/
def Defines (o : Options) (m : Machine ρ) (key : String) (t : Tree) : Prop :=
  ∃ k, m.NextRuns o (.stack k .define) ∧ key ∈ m.name.head? ∧
    ∃ x ∈ ((m.popped m.exec.tail).stack k).head?, Tree.ofItem k x = .ok t

theorem definition?_eq_some_iff {m : Machine ρ} {i : Instruction} {key : String} {t : Tree} :
    m.definition? i = some (key, t) ↔
      ∃ k, i = .stack k .define ∧ key ∈ m.name.head? ∧ ∃ x ∈ (m.stack k).head?, Tree.ofItem k x = .ok t := by
  unfold definition?
  split
  · rename_i k
    simp only [Option.bind_eq_bind, Option.pure_def, Option.bind_eq_some_iff, toOption_eq_some_iff, Option.some.injEq,
      Prod.mk.injEq, Option.mem_def]
    constructor
    · rintro ⟨key, hkey, x, hx, t, ht, rfl, rfl⟩
      exact ⟨k, rfl, hkey, x, hx, ht⟩
    · rintro ⟨_, he, hkey, x, hx, ht⟩
      cases he
      exact ⟨key, hkey, x, hx, t, ht, rfl, rfl⟩
  · rename_i hi
    constructor
    · intro h
      cases h
    · rintro ⟨k, hk, -⟩
      exact absurd hk (hi k)

/-- What `defined?` computes is what an effective definition is. -/
theorem defined?_eq_some_iff {o : Options} {m : Machine ρ} {key : String} {t : Tree} :
    m.defined? o = some (key, t) ↔ m.Defines o key t := by
  simp only [Defines, nextRuns_iff]
  cases he : m.exec with
  | nil => simp [defined?, he]
  | cons u rest =>
    simp only [defined?, he, definedBy?, Option.bind_eq_some_iff, definition?_eq_some_iff, List.tail_cons,
      List.cons.injEq]
    constructor
    · rintro ⟨_, hi, k, rfl, hkey, hx⟩
      exact ⟨k, ⟨u, rest, ⟨rfl, rfl⟩, hi⟩, hkey, hx⟩
    · rintro ⟨k, ⟨_, _, ⟨rfl, rfl⟩, hi⟩, hkey, hx⟩
      exact ⟨_, hi, k, rfl, hkey, hx⟩

end Machine

/-- The name that a `define` takes is not the item that it takes, since NAME has no `define`. -/
theorem StackOp.bindings_defineTop {k : Kind} (hk : k ≠ .name) (m : Machine ρ) :
    (defineTop k m).machine.bindings = m.bindings.bindAll (m.definition? (.stack k .define)).toList := by
  have hstack : ∀ names, ({ m with name := names } : Machine ρ).stack k = m.stack k := fun names =>
    m.stack_setStack_of_ne hk (k := .name) names
  unfold defineTop Machine.definition?
  cases hn : m.name with
  | nil => rfl
  | cons key names =>
    simp only [hstack]
    cases hx : m.stack k with
    | nil => rfl
    | cons x xs =>
      dsimp only
      cases ht : Tree.ofItem k x with
      | error e => simp [ht, Except.toOption, Bindings.bindAll, Outcome.machine, Machine.setStack]
      | ok t => simp [ht, Except.toOption, Bindings.bindAll, Outcome.machine, Machine.setStack, Machine.define]

variable [RandomSource ρ]

/-- **An instruction binds what it defines and nothing else.** -/
theorem Instruction.bindings_run {i : Instruction} (hi : i ∈ all) (o : Options) (m : Machine ρ) :
    (i.run o m).machine.bindings = m.bindings.bindAll (m.definition? i).toList := by
  cases hb : i.binds with
  | true =>
    obtain ⟨k, rfl⟩ : ∃ k, i = .stack k .define := by
      unfold binds at hb
      split at hb
      · exact ⟨_, rfl⟩
      · cases hb
    have hk : k ≠ .name := by
      rintro rfl
      exact absurd hi (by decide)
    exact StackOp.bindings_defineTop hk m
  | false =>
    have hnone : m.definition? i = none := by
      unfold Machine.definition?
      split
      · cases hb
      · rfl
    rw [(i.run_frame o m).bindings hb, hnone]
    rfl

namespace Machine

variable {o : Options} {m : Machine ρ}

/-- **Executing an item binds what it defines and nothing else.** -/
theorem bindings_execute (o : Options) (m : Machine ρ) (t : Tree) :
    (m.execute o t).machine.bindings = m.bindings.bindAll (m.definedBy? o t).toList := by
  cases hi : o.instruction? t with
  | none =>
    have hnone : m.definedBy? o t = none := by rw [definedBy?, hi]; rfl
    rcases execute_cases o m t with ⟨hb, -⟩ | ⟨token, stack, operation, i, rfl, hc, hr, -⟩
    · rw [hb, hnone]
      rfl
    · rw [Options.instruction?_atom_eq_some_iff.2 ⟨stack, operation, hc, hr⟩] at hi
      cases hi
  | some i =>
    rw [machine_execute_of_instruction hi, definedBy?, hi,
      Instruction.bindings_run (Options.mem_all_of_instruction? hi)]
    rfl

/-- **So does a step.** -/
theorem bindings_step {out : Outcome Stop ρ} (h : m.step o = some out) :
    out.machine.bindings = m.bindings.bindAll (m.defined? o).toList := by
  obtain ⟨t, rest, he, rfl, -⟩ := step_origin h
  rw [bindings_execute, defined?, he]
  rfl

/-! ## The moments of a session -/

/-- A machine as it is at some moment of a session, and what is bound there. -/
structure Moment (ρ : Type) where
  machine : Machine ρ
  binds   : Option (String × Tree)

/-- What an operation binds itself, rather than by the steps of an evaluation. -/
def boundBy? (o : Options) (m : Machine ρ) : Operation → Option (String × Tree)
  | .execute t     => m.definedBy? o t
  | .define name t => some (name, t)
  | .run _ | .runTree _ | .runCode _ | .reset | .flush => none

/-- **The moments of a session**: before each operation, before each step of it, and at the end. -/
def timeline (o : Options) : Machine ρ → List Operation → List (Moment ρ)
  | m, []        => [⟨m, none⟩]
  | m, op :: ops =>
    ⟨m, m.boundBy? o op⟩ :: (m.callPops o op).map (fun p => ⟨p, p.defined? o⟩) ++ timeline o (m.perform o op) ops

/-- The bindings are `b` at the first of these moments, after each what was bound there is added, and in the end they
are `b'`. -/
def Linked (b : Bindings) : List (Moment ρ) → Bindings → Prop
  | [],      b' => b' = b
  | a :: as, b' => a.machine.bindings = b ∧ Linked (b.bindAll a.binds.toList) as b'

namespace Linked

omit [RandomSource ρ]

variable {b c d : Bindings}

theorem append : ∀ {as as' : List (Moment ρ)} {b : Bindings}, Linked b as c → Linked c as' d → Linked b (as ++ as') d
  | [],      _, _, h, h' => by
    obtain rfl : c = _ := h
    exact h'
  | _ :: _, _, _, h, h' => ⟨h.1, append h.2 h'⟩

/-- **At each moment everything that was bound before it is there.** -/
theorem bindings_eq {after : List (Moment ρ)} {a : Moment ρ} : ∀ {before : List (Moment ρ)} {b : Bindings},
    Linked b (before ++ a :: after) c → a.machine.bindings = b.bindAll (before.filterMap (·.binds))
  | [],          b, h => h.1
  | x :: before, b, h => by
    have hrest := bindings_eq h.2
    cases hx : x.binds with
    | none =>
      rw [hx] at hrest
      rw [List.filterMap_cons_none hx]
      exact hrest
    | some e =>
      rw [hx] at hrest
      rw [List.filterMap_cons_some hx]
      exact hrest

theorem names_isPrefix : ∀ {as : List (Moment ρ)} {b : Bindings}, Linked b as c →
    ∀ a ∈ as, b.names <+: a.machine.bindings.names
  | [],      _, _ => List.forall_mem_nil _
  | x :: as, b, h => by
    refine List.forall_mem_cons.2 ⟨h.1.symm ▸ List.prefix_rfl, fun a ha => ?_⟩
    exact (Bindings.names_prefix_bindAll _ b).trans (names_isPrefix h.2 a ha)

/-- **Names are only added, at the end.** -/
theorem pairwise_names : ∀ {as : List (Moment ρ)} {b : Bindings}, Linked b as c →
    as.Pairwise fun a a' => a.machine.bindings.names <+: a'.machine.bindings.names
  | [],      _, _ => .nil
  | x :: as, b, h => by
    refine .cons (fun a ha => ?_) (pairwise_names h.2)
    rw [h.1]
    exact (Bindings.names_prefix_bindAll _ b).trans (names_isPrefix h.2 a ha)

end Linked

theorem linked_pops (o : Options) : ∀ (n : Nat) (m : Machine ρ),
    Linked m.bindings ((pops o n m).map fun p => ⟨p, p.defined? o⟩) (loop o n m).2.bindings
  | 0,     _ => rfl
  | n + 1, m => by
    rw [pops, loop]
    split
    · rename_i hs
      simp only [hs]
      rfl
    · rename_i m₁ hs
      simp only [hs, List.map_cons]
      refine ⟨rfl, ?_⟩
      rw [← bindings_step hs]
      exact linked_pops o n m₁
    · rename_i cause m₁ hs
      have hb := bindings_step hs
      simp only [hs, List.map_cons, List.map_nil]
      refine ⟨rfl, ?_⟩
      cases cause <;> exact hb

theorem linked_runTree (o : Options) (m : Machine ρ) (t : Tree) :
    Linked m.bindings ((pops o ((m.start o t).budget o) ((m.start o t).load t)).map fun p => ⟨p, p.defined? o⟩)
      (m.runTree o t).2.bindings := by
  have hstart : ((m.start o t).load t).bindings = m.bindings := by
    unfold start
    dsimp only
    split <;> rfl
  have hrun : (m.runTree o t).2.bindings
      = (loop o ((m.start o t).budget o) ((m.start o t).load t)).2.bindings :=
    runTree_eq_loop (f := fun m => m.bindings) (fun _ _ => rfl) m t
  rw [hrun, ← hstart]
  exact linked_pops o _ _

/-- An operation binds what it binds itself or what its steps bind, one after the other. -/
theorem linked_perform (o : Options) (m : Machine ρ) (op : Operation) :
    Linked (m.bindings.bindAll (m.boundBy? o op).toList) ((m.callPops o op).map fun p => ⟨p, p.defined? o⟩)
      (m.perform o op).bindings := by
  cases op with
  | run text =>
    simp only [callPops, runPops, perform, run]
    cases Tree.parse text with
    | error e => rfl
    | ok t => exact linked_runTree o m t
  | runTree t => exact linked_runTree o m t
  | runCode t => exact linked_pops o _ (m.load t)
  | execute t => exact bindings_execute o m t
  | reset | flush | define => rfl

/-- **Along a session, the bindings are what was bound so far.** -/
theorem linked_timeline (o : Options) : ∀ (ops : List Operation) (m : Machine ρ),
    Linked m.bindings (timeline o m ops) (m.performAll o ops).bindings
  | [],        _ => ⟨rfl, rfl⟩
  | op :: ops, m => ⟨rfl, (linked_perform o m op).append (linked_timeline o ops (m.perform o op))⟩

/-- The last moment is the end. -/
theorem exists_timeline_eq (o : Options) : ∀ (ops : List Operation) (m : Machine ρ),
    ∃ before, timeline o m ops = before ++ [⟨m.performAll o ops, none⟩]
  | [],        _ => ⟨[], rfl⟩
  | op :: ops, m => by
    obtain ⟨before, he⟩ := exists_timeline_eq o ops (m.perform o op)
    refine ⟨⟨m, m.boundBy? o op⟩ :: (m.callPops o op).map (fun p => ⟨p, p.defined? o⟩) ++ before, ?_⟩
    rw [timeline, he, List.append_assoc]
    rfl

/-- **Definitions only grow, and the last binding wins.**  A step that is an effective definition changes just that one
binding, and any other step changes none.  Hence along any session the names that are bound at a moment are the first of
those bound at any later one, none is there twice, and a name in any case means the tree that it was last bound to, or
what it meant at the start if it has not been bound since. -/
theorem bindings_of_timeline (o : Options) :
    (∀ (m : Machine ρ) (out : Outcome Stop ρ), m.step o = some out →
      (∀ key t, m.Defines o key t → m.bindings.Rebinds key t out.machine.bindings) ∧
      ((∀ key t, ¬ m.Defines o key t) → out.machine.bindings = m.bindings)) ∧
    (∀ (m : Machine ρ) (ops : List Operation),
      ((timeline o m ops).Pairwise fun a a' => a.machine.bindings.names <+: a'.machine.bindings.names) ∧
      (∀ a ∈ timeline o m ops, a.machine.bindings.names.Nodup) ∧
      (∀ before a after, timeline o m ops = before ++ a :: after → ∀ name,
        a.machine.bindings.lookup name
          = (Bindings.latest name (before.filterMap (·.binds))).or (m.bindings.lookup name))) := by
  refine ⟨fun m out hs => ⟨fun key t hd => ?_, fun hnone => ?_⟩, fun m ops => ?_⟩
  · rw [bindings_step hs, defined?_eq_some_iff.2 hd]
    exact Bindings.rebinds_bind m.bindings key t
  · have hd : m.defined? o = none := by
      cases hd : m.defined? o with
      | none => rfl
      | some d => exact absurd (defined?_eq_some_iff.1 hd) (hnone d.1 d.2)
    rw [bindings_step hs, hd]
    rfl
  · have hlinked := linked_timeline o ops m
    refine ⟨hlinked.pairwise_names, fun a _ => a.machine.bindings.nodup_names, fun before a after hsplit name => ?_⟩
    rw [hsplit] at hlinked
    rw [hlinked.bindings_eq, Bindings.lookup_bindAll]

/-- A name that is bound in one run, and protected and bound again in another, keeps its place before a later one. -/
theorem bindings_of_timeline_again :
    let m := initial (Twister.ofSeed 0)
    let ready := { m with exec := [.atom "Integer.Define"], name := ["key"], integer := [1] }
    let ops : List Operation :=
      [.run "Key 1 integer.define", .flush, .run "true name.quote KEY boolean.define x 7 integer.define"]
    (∃ out, ready.step {} = some out ∧ ready.Defines {} "key" (.atom "1") ∧
      ready.bindings.Rebinds "key" (.atom "1") out.machine.bindings) ∧
    ∃ before a, timeline {} m ops = before ++ [a] ∧
      before.filterMap (·.binds) = [("key", .atom "1"), ("key", .atom "true"), ("x", .atom "7")] ∧
      a.machine.bindings.names = ["key", "x"] ∧ a.machine.bindings.names.Nodup ∧
      a.machine.bindings.lookup "kEy" = some (.atom "true") := by
  intro m ready ops
  have hdefines : ready.Defines {} "key" (.atom "1") := defined?_eq_some_iff.1 rfl
  refine ⟨⟨_, rfl, hdefines, ((bindings_of_timeline {}).1 ready _ rfl).1 _ _ hdefines⟩, ?_⟩
  obtain ⟨before, hend⟩ := exists_timeline_eq {} ops m
  have hbound : before.filterMap (·.binds) = [("key", .atom "1"), ("key", .atom "true"), ("x", .atom "7")] := by
    have hall : (timeline {} m ops).filterMap (·.binds)
        = [("key", .atom "1"), ("key", .atom "true"), ("x", .atom "7")] := by decide +kernel
    rwa [hend, List.filterMap_append, List.filterMap_cons_none rfl, List.filterMap_nil, List.append_nil] at hall
  obtain ⟨-, hnodup, hlookup⟩ := (bindings_of_timeline {}).2 m ops
  refine ⟨before, _, hend, hbound, by decide +kernel, hnodup _ (by rw [hend]; simp), ?_⟩
  rw [hlookup before _ [] hend "kEy", hbound]
  decide +kernel

end Machine
end PushMachine
