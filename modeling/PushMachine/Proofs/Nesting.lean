import PushMachine.Proofs.Budget
import PushMachine.Proofs.Course
import PushMachine.Proofs.Footprint
import PushMachine.Proofs.Lexical
import PushMachine.Proofs.Likeness.Instruction
import PushMachine.Proofs.Origin
import PushMachine.Proofs.Parsing
import PushMachine.Proofs.Referring
import PushMachine.Random.Twister
/-!
# Parentheses do not matter to programs that do not look at code

A tree is plain if none of its tokens refers to an instruction of EXEC or CODE.  What a plain atom does depends neither on
what else is on EXEC nor on the count of steps (`execute_place`), and a list only costs the step that opens it
(`after?_open`).  So a run that starts with plain trees follows their tokens, however these are nested
(`after?_of_tokens`): two programs with the same tokens do the same, and their steps differ by the number of their lists.
-/
namespace PushMachine

variable {ρ : Type}

/-! ## Lists and plain trees -/

def Token.isCodeReference : Token → Bool
  | .instruction stack _ => stack == Kind.exec.label || stack == Kind.code.label
  | _                    => false

/-- Whether a token refers to an instruction of EXEC or CODE, known or not. -/
def Token.refersToCode (token : String) : Bool := (classify token).toOption.any isCodeReference

namespace Tree

mutual

/-- The number of lists in a tree. -/
def lists : Tree → Nat
  | .atom _  => 0
  | .list ts => 1 + listsAll ts

def listsAll : List Tree → Nat
  | []      => 0
  | t :: ts => lists t + listsAll ts

end

theorem listsAll_append : ∀ ts us : List Tree, listsAll (ts ++ us) = listsAll ts + listsAll us
  | [],      us => by simp [listsAll]
  | t :: ts, us => by simp [listsAll, listsAll_append ts us, Nat.add_assoc]

theorem tokensAll_append : ∀ ts us : List Tree, tokensAll (ts ++ us) = tokensAll ts ++ tokensAll us
  | [],      us => rfl
  | t :: ts, us => by simp [tokensAll, tokensAll_append ts us]

/-- **No token of the tree refers to an instruction of EXEC or CODE.** -/
def Plain (t : Tree) : Prop := ∀ token ∈ t.tokens, Token.refersToCode token = false

instance (t : Tree) : Decidable t.Plain :=
  inferInstanceAs (Decidable (∀ token ∈ t.tokens, Token.refersToCode token = false))

theorem plain_atom {token : String} : (Tree.atom token).Plain ↔ Token.refersToCode token = false := forall_tokens_atom

theorem plain_list {ts : List Tree} : (Tree.list ts).Plain ↔ ∀ t ∈ ts, t.Plain := forall_tokens_list

theorem plain_of_not_instruction {token : String}
    (h : ∀ stack operation, Token.classify token ≠ .ok (.instruction stack operation)) : (Tree.atom token).Plain := by
  rw [plain_atom, Token.refersToCode]
  cases hc : Token.classify token with
  | error f => rfl
  | ok meaning =>
    cases meaning with
    | instruction stack operation => exact absurd hc (h stack operation)
    | integer | float | boolean | name => rfl

/-- The code of a number or a truth value is plain. -/
theorem plain_ofItem {k : Kind} (hk : k = .integer ∨ k = .float ∨ k = .boolean) {x : k.Item} {t : Tree}
    (ht : ofItem k x = .ok t) : t.Plain := by
  rcases hk with rfl | rfl | rfl
  · obtain ⟨-, rfl⟩ := ofInteger_eq_ok_iff.1 ht
    exact plain_of_not_instruction (Token.not_instruction_of_pointless (Number.pointless_repr x))
  · cases ht
    exact plain_of_not_instruction (Token.floatText_not_instruction x)
  · cases ht
    cases x <;> exact plain_atom.2 (by decide +kernel)

end Tree

/-! ## What a plain atom does -/

namespace Machine

/-- The machine with these items to execute and this count of steps. -/
def place (m : Machine ρ) (exec : Stack Tree) (steps : Nat) : Machine ρ := { m with exec := exec, steps := steps }

/-- Machines that are the same but for the count of steps. -/
theorem Alike.eq_withSteps {m m' : Machine ρ} (h : m.Alike id m') {steps : Nat} (hs : m'.steps = steps) :
    m' = { m with steps := steps } := by
  have hfold : ∀ k : Kind, k.fold id = id := by
    intro k
    funext x
    cases k <;> first | rfl | exact Tree.mapTokens_id x
  have hstack : ∀ k, m'.stack k = m.stack k := fun k => (h.literal (hfold k)).symm
  have hentries : ∀ b : Bindings, b.fold id = b.entries := by
    intro b
    simp [Bindings.fold, Tree.mapTokens_id]
  have hbindings : m'.bindings = m.bindings := by
    have hb := h.bindings
    rw [hentries, hentries] at hb
    exact Bindings.ext hb.symm
  calc m' = ⟨m'.toStacks, m'.bindings, m'.quoting, m'.steps, m'.supply⟩ := rfl
    _ = ⟨m.toStacks, m.bindings, m.quoting, steps, m.supply⟩ := by
      rw [Stacks.eq_of_get hstack, hbindings, h.quoting, h.supply, hs]

end Machine

namespace Instruction

variable {i : Instruction}

theorem exec_not_mem_uses (he : i.kind ≠ .exec) (hc : i.kind ≠ .code) : .exec ∉ i.uses := by
  cases i with
  | stack k op => cases k <;> first | exact absurd rfl he | exact absurd rfl hc | (cases op <;> decide)
  | integer op | float op | boolean op | name op => cases op <;> decide
  | exec op => exact absurd rfl he
  | code op => exact absurd rfl hc

theorem comparesTrees_eq_false (he : i.kind ≠ .exec) (hc : i.kind ≠ .code) : i.comparesTrees = false := by
  unfold comparesTrees
  split
  · exact absurd rfl he
  · exact absurd rfl hc
  · exact absurd rfl hc
  · rfl

variable [RandomSource ρ]

theorem run_withSteps (o : Options) (m : Machine ρ) (hc : i.comparesTrees = false) (steps : Nat) :
    i.run o { m with steps := steps } = (i.run o m).map ({ · with steps := steps }) := by
  have hsteps := (i.run_frame o { m with steps := steps }).steps
  have halike : m.Alike id { m with steps := steps } := ⟨fun _ => rfl, rfl, rfl, rfl⟩
  have hrun := i.run_alike o halike hc
  generalize i.run o m = out at hrun ⊢
  generalize i.run o { m with steps := steps } = out' at hrun hsteps ⊢
  cases hrun with
  | next h => exact congrArg Outcome.next (h.eq_withSteps hsteps)
  | stop hcause h =>
    subst hcause
    exact congrArg (Outcome.stop _) (h.eq_withSteps hsteps)

/-- An instruction of another stack than EXEC and CODE sees neither what is on EXEC nor the count of steps. -/
theorem run_place (o : Options) (m : Machine ρ) (he : i.kind ≠ .exec) (hc : i.kind ≠ .code) (xs : Stack Tree)
    (steps : Nat) : i.run o (m.place xs steps) = (i.run o m).map (·.place xs steps) := by
  have hplace : m.place xs steps = Machine.setStack { m with steps := steps } .exec xs := rfl
  rw [hplace, i.run_setStack (l := .exec) o _ xs (exec_not_mem_uses he hc), run_withSteps o m (comparesTrees_eq_false he hc)]
  cases i.run o m <;> rfl

end Instruction

namespace Machine

variable [RandomSource ρ] {o : Options} {m : Machine ρ} {token : String}

/-- The instruction that a plain token runs is none of EXEC and CODE. -/
theorem kind_of_plain {stack operation : String} {i : Instruction} (hp : Token.refersToCode token = false)
    (hc : Token.classify token = .ok (.instruction stack operation)) (hr : o.resolve stack operation token = .ok i) :
    i ∈ Instruction.all ∧ i.kind ≠ .exec ∧ i.kind ≠ .code := by
  obtain ⟨hi, hlabel, -, -⟩ := Options.resolve_eq_ok hr
  simp only [Token.refersToCode, hc, Except.toOption, Option.any_some, Token.isCodeReference, ← hlabel,
    Bool.or_eq_false_iff, beq_eq_false_iff_ne] at hp
  exact ⟨hi, fun he => hp.1 (by rw [he]), fun he => hp.2 (by rw [he])⟩

omit [RandomSource ρ] in
theorem pushEnabled_place (m : Machine ρ) {k : Kind} (hk : k ≠ .exec) (x : k.Item) (xs : Stack Tree) (steps : Nat) :
    (m.place xs steps).pushEnabled o k x
      = ((m.place [] 0).pushEnabled o k x).place (((m.place [] 0).pushEnabled o k x).exec ++ xs) steps := by
  unfold pushEnabled
  cases k <;> first | exact absurd rfl hk | (split <;> rfl)

section ExecuteName

variable {name : String}

omit [RandomSource ρ]

theorem executeName_of_quoting (h : m.quoting = true) :
    m.executeName o name = { m with quoting := false }.pushEnabled o .name name := if_pos h

theorem executeName_of_bound (h : m.quoting = false) {t : Tree} (hl : m.bindings.lookup name = some t) :
    m.executeName o name = { m with exec := t :: m.exec } := by
  simp [executeName, h, hl]

theorem executeName_of_unbound (h : m.quoting = false) (hl : m.bindings.lookup name = none) :
    m.executeName o name = m.pushEnabled o .name name := by
  simp [executeName, h, hl]

theorem executeName_place (m : Machine ρ) (name : String) (xs : Stack Tree) (steps : Nat) :
    (m.place xs steps).executeName o name
      = ((m.place [] 0).executeName o name).place (((m.place [] 0).executeName o name).exec ++ xs) steps := by
  cases hq : m.quoting with
  | true =>
    rw [executeName_of_quoting (m := m.place xs steps) hq, executeName_of_quoting (m := m.place [] 0) hq]
    exact pushEnabled_place { m with quoting := false } (k := .name) (by decide) name xs steps
  | false =>
    cases hl : m.bindings.lookup name with
    | some t =>
      rw [executeName_of_bound (m := m.place xs steps) hq hl, executeName_of_bound (m := m.place [] 0) hq hl]
      rfl
    | none =>
      rw [executeName_of_unbound (m := m.place xs steps) hq hl, executeName_of_unbound (m := m.place [] 0) hq hl]
      exact pushEnabled_place m (k := .name) (by decide) name xs steps

end ExecuteName

/-- **A plain atom sees neither what else is to be executed nor the count of steps**, and at most puts something on top of
what is to be executed. -/
theorem execute_place (hp : Token.refersToCode token = false) (m : Machine ρ) (xs : Stack Tree) (steps : Nat) :
    (m.place xs steps).execute o (.atom token)
      = ((m.place [] 0).execute o (.atom token)).map fun m' => m'.place (m'.exec ++ xs) steps := by
  simp only [execute]
  cases hc : Token.classify token with
  | error f => rfl
  | ok meaning =>
    cases meaning with
    | integer n => exact congrArg Outcome.next (m.pushEnabled_place (k := .integer) (by decide) n xs steps)
    | float x => exact congrArg Outcome.next (m.pushEnabled_place (k := .float) (by decide) x xs steps)
    | boolean b => exact congrArg Outcome.next (m.pushEnabled_place (k := .boolean) (by decide) b xs steps)
    | name name => exact congrArg Outcome.next (m.executeName_place name xs steps)
    | instruction stack operation =>
      dsimp only
      cases hr : o.resolve stack operation token with
      | error a => rfl
      | ok i =>
        obtain ⟨-, he, hcode⟩ := kind_of_plain hp hc hr
        have hexec : (i.run o (m.place [] 0)).machine.exec = [] :=
          i.stack_run (k := .exec) (Instruction.exec_not_mem_uses he hcode) o (m.place [] 0)
        have hrun := i.run_place o (m.place [] 0) he hcode xs steps
        rw [show (m.place [] 0).place xs steps = m.place xs steps from rfl] at hrun
        simp only [hrun]
        generalize i.run o (m.place [] 0) = out at hexec ⊢
        cases out <;> (simp only [Outcome.machine] at hexec; simp only [Outcome.map, hexec, List.nil_append])

/-- The next item is a name that is replaced by the tree bound to it. -/
def Expands (m : Machine ρ) : Prop :=
  ∃ token name t rest, m.exec = .atom token :: rest ∧ Token.classify token = .ok (.name name) ∧ m.quoting = false ∧
    m.bindings.lookup name = some t

/-- A plain atom leaves nothing more to execute, unless it is a name that is replaced by its tree. -/
theorem exec_execute (hp : Token.refersToCode token = false) (m : Machine ρ) :
    ((m.place [] 0).execute o (.atom token)).machine.exec = [] ∨
      ∃ name t, Token.classify token = .ok (.name name) ∧ m.quoting = false ∧ m.bindings.lookup name = some t ∧
        ((m.place [] 0).execute o (.atom token)).machine.exec = [t] := by
  have hpush : ∀ (m : Machine ρ) (k : Kind) (x : k.Item), k ≠ .exec → m.exec = [] → (m.pushEnabled o k x).exec = [] := by
    intro m k x hk he
    unfold pushEnabled
    cases k <;> first | exact absurd rfl hk | (split <;> exact he)
  simp only [execute]
  cases hc : Token.classify token with
  | error f => exact .inl rfl
  | ok meaning =>
    cases meaning with
    | integer n => exact .inl (hpush _ .integer n (by decide) rfl)
    | float x => exact .inl (hpush _ .float x (by decide) rfl)
    | boolean b => exact .inl (hpush _ .boolean b (by decide) rfl)
    | name name =>
      dsimp only [Outcome.machine]
      cases hq : m.quoting with
      | true =>
        rw [executeName_of_quoting (m := m.place [] 0) hq]
        exact .inl (hpush _ .name name (by decide) rfl)
      | false =>
        cases hl : m.bindings.lookup name with
        | some t =>
          rw [executeName_of_bound (m := m.place [] 0) hq hl]
          exact .inr ⟨name, t, rfl, rfl, hl, rfl⟩
        | none =>
          rw [executeName_of_unbound (m := m.place [] 0) hq hl]
          exact .inl (hpush _ .name name (by decide) rfl)
    | instruction stack operation =>
      refine .inl ?_
      dsimp only
      cases hr : o.resolve stack operation token with
      | error a => rfl
      | ok i =>
        obtain ⟨-, he, hcode⟩ := kind_of_plain hp hc hr
        have hexec : (i.run o (m.place [] 0)).machine.exec = [] :=
          i.stack_run (k := .exec) (Instruction.exec_not_mem_uses he hcode) o (m.place [] 0)
        dsimp only
        generalize i.run o (m.place [] 0) = out at hexec ⊢
        cases out <;> exact hexec

end Machine

/-- Every tree that is bound is plain. -/
def Bindings.Plain (b : Bindings) : Prop := ∀ e ∈ b.entries, e.2.Plain

namespace Machine

variable [RandomSource ρ] {o : Options} {m : Machine ρ} {token : String}

/-- A plain atom binds plain code only: the instructions left bind numbers and truth values. -/
theorem plain_bindings_execute (hp : Token.refersToCode token = false) (hb : m.bindings.Plain) :
    (m.execute o (.atom token)).machine.bindings.Plain := by
  rcases execute_cases o m (.atom token) with ⟨hsame, -⟩ | ⟨_, stack, operation, i, ht, hc, hr, heq⟩
  · rw [hsame]
    exact hb
  · cases ht
    obtain ⟨hi, he, hcode⟩ := kind_of_plain hp hc hr
    rw [heq]
    intro e hmem
    rcases i.run_bindings o m e hmem with hold | ⟨k, rfl, -, -, x, -, -, hx⟩
    · exact hb e hold
    · refine Tree.plain_ofItem ?_ hx
      cases k with
      | integer | float | boolean => simp
      | name => exact absurd hi (by decide)
      | exec => exact absurd rfl he
      | code => exact absurd rfl hcode

theorem plain_exec_execute (hp : Token.refersToCode token = false) (hb : m.bindings.Plain) :
    ∀ t ∈ ((m.place [] 0).execute o (.atom token)).machine.exec, t.Plain := by
  rcases exec_execute (o := o) hp m with hnil | ⟨name, t, -, -, hl, hone⟩
  · rw [hnil]
    exact List.forall_mem_nil _
  · obtain ⟨key, hmem⟩ := Bindings.mem_entries_of_lookup hl
    rw [hone]
    exact List.forall_mem_singleton.2 (hb _ hmem)

/-- **A step that executes a plain atom** does the same whatever else is to be executed: there is a machine `c` that it
comes to if nothing is, and it only puts what `c` is to execute on top. -/
theorem step_atom {m₁ : Machine ρ} {rest : Stack Tree} {a : Nat} (hp : Token.refersToCode token = false)
    (hb : m.bindings.Plain) (h : (m.place (.atom token :: rest) a).step o = some (.next m₁)) :
    ∃ c : Machine ρ, m₁ = c.place (c.exec ++ rest) (a + 1) ∧ c.bindings.Plain ∧ (∀ t ∈ c.exec, t.Plain) ∧
      (c.exec = [] ∨ (m.place (.atom token :: rest) a).Expands) ∧
      ∀ rest' b, (m.place (.atom token :: rest') b).step o = some (.next (c.place (c.exec ++ rest') (b + 1))) := by
  have hstep : ∀ xs b, (m.place (.atom token :: xs) b).step o
      = some (((m.place [] 0).execute o (.atom token)).map fun m' => m'.place (m'.exec ++ xs) (b + 1)) := by
    intro xs b
    rw [← execute_place hp]
    rfl
  have hbound := plain_bindings_execute (o := o) (m := m.place [] 0) hp hb
  have hadded := plain_exec_execute (o := o) hp hb
  have hexec := exec_execute (o := o) hp m
  rw [hstep] at h
  cases hout : (m.place [] 0).execute o (.atom token) with
  | stop cause c => rw [hout] at h; cases h
  | next c =>
    rw [hout] at h hbound hadded hexec
    cases h
    refine ⟨c, rfl, hbound, hadded, ?_, fun rest' b => by rw [hstep, hout]; rfl⟩
    rcases hexec with hnil | ⟨name, t, hc, hq, hl, -⟩
    · exact .inl hnil
    · exact .inr ⟨token, name, t, rest, rfl, hc, hq, hl⟩

/-! ## Following the tokens -/

/-- Opening the lists on top costs a step each and leaves an atom on top, or nothing. -/
theorem after?_open (o : Options) (m : Machine ρ) (us : List Tree) (steps : Nat) :
    ∃ j us', after? o j (m.place us steps) = some (m.place us' (steps + j)) ∧
      Tree.tokensAll us' = Tree.tokensAll us ∧ j + Tree.listsAll us' = Tree.listsAll us ∧
      (us' = [] ∨ ∃ token rest, us' = .atom token :: rest) := by
  match us with
  | [] => exact ⟨0, [], rfl, rfl, by omega, .inl rfl⟩
  | .atom token :: rest => exact ⟨0, _, rfl, rfl, by omega, .inr ⟨token, rest, rfl⟩⟩
  | .list ts :: rest =>
    obtain ⟨j, us', hafter, htokens, hlists, htop⟩ := after?_open o m (ts ++ rest) (steps + 1)
    have hstep : (m.place (.list ts :: rest) steps).step o = some (.next (m.place (ts ++ rest) (steps + 1))) := rfl
    refine ⟨j + 1, us', ?_, ?_, ?_, htop⟩
    · rw [after?_of_step hstep, hafter, Nat.add_right_comm, Nat.add_assoc]
    · rw [htokens, Tree.tokensAll_append, Tree.tokensAll, Tree.tokens]
    · rw [Tree.listsAll_append] at hlists
      rw [Tree.listsAll, Tree.lists]
      omega
termination_by Tree.listsAll us
decreasing_by
  rw [Tree.listsAll_append, Tree.listsAll, Tree.lists]
  omega

/-- **Only the tokens matter**: what comes to an end on one nesting of plain trees comes to the same end on another, in a
number of steps that differs by the lists. -/
theorem after?_of_tokens (o : Options) : ∀ (n : Nat) {m e : Machine ρ} {ts us : List Tree} {a b : Nat},
    m.bindings.Plain → (∀ t ∈ ts, t.Plain) → Tree.tokensAll ts = Tree.tokensAll us →
    after? o n (m.place ts a) = some e → e.exec = [] →
      ∃ k, after? o k (m.place us b) = some (e.place [] (b + k)) ∧ n + Tree.listsAll us = k + Tree.listsAll ts
  | 0, m, e, ts, us, a, b, _, _, htokens, hafter, he => by
    cases hafter
    have hts : ts = [] := he
    subst hts
    obtain ⟨j, us', hopen, hsame, hlists, htop⟩ := after?_open o m us b
    have hus : us' = [] := by
      rcases htop with rfl | ⟨token, rest, rfl⟩
      · rfl
      · rw [← htokens] at hsame
        cases hsame
    subst hus
    exact ⟨j, hopen, by simp only [Tree.listsAll] at hlists ⊢; omega⟩
  | n + 1, m, e, [], us, a, b, _, _, _, hafter, _ => by cases hafter
  | n + 1, m, e, .list items :: rest, us, a, b, hb, hts, htokens, hafter, he => by
    obtain ⟨hitems, hrest⟩ := List.forall_mem_cons.1 hts
    have hplain : ∀ t ∈ items ++ rest, t.Plain := List.forall_mem_append.2 ⟨Tree.plain_list.1 hitems, hrest⟩
    have hstep : (m.place (.list items :: rest) a).step o = some (.next (m.place (items ++ rest) (a + 1))) := rfl
    rw [after?_of_step hstep] at hafter
    rw [Tree.tokensAll, Tree.tokens, ← Tree.tokensAll_append] at htokens
    obtain ⟨k, hk, hcount⟩ := after?_of_tokens o n (b := b) hb hplain htokens hafter he
    refine ⟨k, hk, ?_⟩
    rw [Tree.listsAll_append] at hcount
    rw [Tree.listsAll, Tree.lists]
    omega
  | n + 1, m, e, .atom token :: rest, us, a, b, hb, hts, htokens, hafter, he => by
    obtain ⟨hatom, hrest⟩ := List.forall_mem_cons.1 hts
    have hp : Token.refersToCode token = false := Tree.plain_atom.1 hatom
    -- the other machine opens the lists on top of the same token
    obtain ⟨j, us', hopen, hsame, hlists, htop⟩ := after?_open o m us b
    rw [← htokens] at hsame
    obtain ⟨rest', rfl, hrest'⟩ : ∃ rest', us' = .atom token :: rest' ∧ Tree.tokensAll rest = Tree.tokensAll rest' := by
      rcases htop with rfl | ⟨token', rest', rfl⟩
      · cases hsame
      · obtain ⟨rfl, htail⟩ := List.cons.inj hsame
        exact ⟨rest', rfl, htail.symm⟩
    -- and both execute it in the same way
    obtain ⟨m₁, hstep, hafter⟩ := step_of_after? hafter
    obtain ⟨c, rfl, hbound, hadded, -, hany⟩ := step_atom hp hb hstep
    have htokens' : Tree.tokensAll (c.exec ++ rest) = Tree.tokensAll (c.exec ++ rest') := by
      rw [Tree.tokensAll_append, Tree.tokensAll_append, hrest']
    obtain ⟨k, hk, hcount⟩ := after?_of_tokens o n (b := b + j + 1) hbound
      (List.forall_mem_append.2 ⟨hadded, hrest⟩) htokens' hafter he
    refine ⟨j + (k + 1), ?_, ?_⟩
    · rw [after?_add (k + 1) hopen, after?_of_step (hany rest' (b + j)), hk]
      congr 2
      omega
    · rw [Tree.listsAll_append, Tree.listsAll_append] at hcount
      simp only [Tree.listsAll, Tree.lists] at hlists ⊢
      omega

/-- Without a name that is replaced by its tree, every point of what is to be executed costs one step. -/
theorem nodesAll_of_after? (o : Options) : ∀ (n : Nat) {N : Nat} {m e : Machine ρ} {ts : List Tree} {a : Nat},
    m.bindings.Plain → (∀ t ∈ ts, t.Plain) → after? o n (m.place ts a) = some e → e.exec = [] → n ≤ N →
    (∀ s ∈ pops o N (m.place ts a), ¬ s.Expands) → n = Tree.nodesAll ts
  | 0, N, m, e, ts, a, _, _, hafter, he, _, _ => by
    cases hafter
    rw [show ts = [] from he]
    rfl
  | n + 1, N, m, e, [], a, _, _, hafter, _, _, _ => by cases hafter
  | n + 1, N + 1, m, e, .list items :: rest, a, hb, hts, hafter, he, hle, hno => by
    obtain ⟨hitems, hrest⟩ := List.forall_mem_cons.1 hts
    have hplain : ∀ t ∈ items ++ rest, t.Plain := List.forall_mem_append.2 ⟨Tree.plain_list.1 hitems, hrest⟩
    have hstep : (m.place (.list items :: rest) a).step o = some (.next (m.place (items ++ rest) (a + 1))) := rfl
    rw [after?_of_step hstep] at hafter
    simp only [pops, hstep] at hno
    have ih := nodesAll_of_after? o n hb hplain hafter he (Nat.le_of_succ_le_succ hle) (List.forall_mem_cons.1 hno).2
    rw [ih, Tree.nodesAll_append, Tree.nodesAll, Tree.nodes]
    omega
  | n + 1, N + 1, m, e, .atom token :: rest, a, hb, hts, hafter, he, hle, hno => by
    obtain ⟨hatom, hrest⟩ := List.forall_mem_cons.1 hts
    obtain ⟨m₁, hstep, hafter⟩ := step_of_after? hafter
    simp only [pops, hstep] at hno
    obtain ⟨hnot, hno⟩ := List.forall_mem_cons.1 hno
    obtain ⟨c, rfl, hbound, -, hexec, -⟩ := step_atom (Tree.plain_atom.1 hatom) hb hstep
    rw [hexec.resolve_right hnot, List.nil_append] at hafter hno
    have ih := nodesAll_of_after? o n hbound hrest hafter he (Nat.le_of_succ_le_succ hle) hno
    rw [ih, Tree.nodesAll, Tree.nodes]
    omega

end Machine
end PushMachine
