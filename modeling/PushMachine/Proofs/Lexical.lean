import PushMachine.Proofs.Course
import PushMachine.Proofs.RandomLeaves
import PushMachine.Proofs.Spelling
/-!
# What a machine holds can be written

Every name of a session is a token and every tree of it is made of tokens, whether they come from a program, from the
table of instructions or from the random source, and every step keeps it so (`Spelled.step`).  So the code of an item is
always there, unless it is an integer that is too long to be written.
-/
namespace PushMachine

variable {ρ : Type}

/-! ## Random names and random code -/

/-- The names generated so far are tokens. -/
def Supply.Named (s : Supply ρ) : Prop := ∀ name ∈ s.minted, Tree.isToken name = true

theorem Supply.IsMinted.isToken {name : String} (h : IsMinted name) : Tree.isToken name = true := by
  obtain ⟨letters, rfl, -, hsmall⟩ := h
  refine Tree.isToken_ofList (by simp) (.cons (by decide) fun c hc => ?_)
  obtain ⟨hlow, hhigh⟩ := hsmall c hc
  have hlow : 'a'.toNat ≤ c.toNat := hlow
  have hhigh : c.toNat ≤ 'z'.toNat := hhigh
  exact Lexeme.isDelimiter_of_ascii (Nat.le_trans (by decide) hlow) (Nat.lt_of_le_of_lt hhigh (by decide))

theorem Supply.Extends.named {names : Bool} {s s' : Supply ρ} (h : s.Extends names s') (hs : s.Named) : s'.Named := by
  obtain ⟨new, he, hnew, -⟩ := h.minted
  rw [Named, he]
  exact List.forall_mem_append.2 ⟨hs, fun name hn => (hnew name hn).isToken⟩

theorem RandomCode.Leaves.wellFormed {o : Options} {minted : List String} {t : Tree} (h : Leaves o minted t)
    (hm : ∀ name ∈ minted, Tree.isToken name = true) : t.WellFormed := by
  intro token htoken
  cases h token htoken with
  | @instruction i _ _ => exact i.isToken_token
  | integer => exact Number.isToken_repr _
  | float x => exact Number.isToken_floatText x
  | boolean b => cases b <;> decide
  | name _ hn => exact hm _ hn

/-! ## Machines -/

variable [RandomSource ρ]

/-- Where an instruction is allowed, some token is. -/
theorem Options.instructionTokens_ne_nil {o : Options} {i : Instruction} (hi : i ∈ Instruction.all)
    (ha : o.allows i = true) : o.instructionTokens ≠ [] := by
  have hcat : (i.token, i) ∈ Instruction.catalogue :=
    (List.mergeSort_perm _ _).mem_iff.2 (List.mem_map.2 ⟨i, hi, rfl⟩)
  exact List.ne_nil_of_mem (List.mem_map.2 ⟨_, List.mem_filter.2 ⟨hcat, ha⟩, rfl⟩)

theorem Bindings.mem_entries_of_lookup {b : Bindings} {name : String} {t : Tree} (h : b.lookup name = some t) :
    ∃ key, (key, t) ∈ b.entries := by
  obtain ⟨e, he, rfl⟩ := List.mem_map.1 (mem_of_find? _ h)
  exact ⟨e.1, he⟩

namespace Machine

/-- **Everything in the machine is spelled right**: its names are tokens, and its trees are made of tokens. -/
structure Spelled (m : Machine ρ) : Prop where
  items  : m.Every Kind.Spelled
  bound  : ∀ e ∈ m.bindings.entries, Tree.isToken e.1 = true ∧ e.2.WellFormed
  minted : m.supply.Named

variable {o : Options} {m : Machine ρ}

omit [RandomSource ρ] in
theorem Spelled.of_lookup (h : m.Spelled) {name : String} {t : Tree} (hl : m.bindings.lookup name = some t) :
    t.WellFormed := by
  obtain ⟨key, hk⟩ := Bindings.mem_entries_of_lookup hl
  exact (h.bound _ hk).2

/-- What an instruction makes is spelled right. -/
theorem Spelled.of_makes (h : m.Spelled) {i : Instruction} {k : Kind} {x : k.Item} (hmk : i.Makes o m k x) :
    k.Spelled x := by
  have hexec : ∀ t ∈ m.exec, t.WellFormed := h.items .exec
  have hcode : ∀ t ∈ m.code, t.WellFormed := h.items .code
  have hloop : ∀ {first last : Int} {body : Tree}, body.WellFormed → (ExecOp.rangeLoop first last body).WellFormed := by
    intro first last body hbody
    refine Tree.wellFormed_list.2 ?_
    simp only [List.forall_mem_cons]
    exact ⟨Tree.wellFormed_integer first, Tree.wellFormed_integer last, by decide, hbody, List.forall_mem_nil _⟩
  cases hmk with
  | float | boolean | depth | wrapped | remainder | truth | clamped | drawn | length | size => trivial
  | minted hn => exact ((Supply.newName_left (E := fun _ => True) trivial m.supply).value _ hn).1.isToken
  | chosen hn =>
    obtain ⟨e, he, rfl⟩ := List.mem_map.1 hn
    exact (h.bound e he).1
  | pair hb hc =>
    refine Tree.wellFormed_list.2 ?_
    simp only [List.forall_mem_cons]
    exact ⟨hexec _ hb, hexec _ hc, List.forall_mem_nil _⟩
  | recursion ht =>
    refine Tree.wellFormed_list.2 ?_
    simp only [List.forall_mem_cons]
    exact ⟨by decide, hexec _ ht, List.forall_mem_nil _⟩
  | range _ _ _ hb => exact hloop (hexec _ hb)
  | count _ _ hb => exact hloop (hexec _ hb)
  | @times n body _ _ hb =>
    refine hloop (Tree.wellFormed_list.2 (List.forall_mem_cons.2 ⟨by decide, fun t ht => ?_⟩))
    intro token htoken
    refine hexec _ hb token ?_
    rw [← body.tokens_items]
    exact Tree.tokens_subset_of_mem ht htoken
  | executed ht => exact hcode _ ht
  | popping => exact (by decide : CodeOp.popToken.WellFormed)
  | built _ htokens =>
    intro token htoken
    obtain ⟨u, hu, hmem⟩ := htokens token htoken
    exact hcode u hu token hmem
  | part hu _ htokens => exact fun token htoken => hcode _ hu token (htokens htoken)
  | recalled _ hl => exact h.of_lookup hl
  | quoted ht _ => exact hexec _ ht
  | @converted op k x t _ _ hx ht => exact Tree.wellFormed_of_ofItem (h.items k x hx) ht
  | @generated n t ht _ =>
    have hleft := RandomCode.upTo_left (o := o) (CodeOp.randomLimit o n) m.supply
    exact (hleft.value t ht).wellFormed (hleft.supply.named h.minted)

/-- **An instruction keeps everything spelled right.** -/
theorem Spelled.run (h : m.Spelled) {i : Instruction} (ha : o.allows i = true) : (i.run o m).machine.Spelled where
  items k x hx := by
    rcases i.run_origin o m k x hx with hold | hmk
    · exact h.items k x hold
    · exact h.of_makes hmk
  bound e he := by
    rcases i.run_bindings o m e he with hold | ⟨k, rfl, key, hkey, x, hx, hname, htree⟩
    · exact h.bound e hold
    · rw [hname]
      exact ⟨Text.isToken_lower (h.items .name key hkey), Tree.wellFormed_of_ofItem (h.items k x hx) htree⟩
  minted := (Instruction.run_supply ha m).named h.minted

/-- Executing an item runs an instruction, or touches nothing beside the stacks and the flag. -/
theorem execute_cases (o : Options) (m : Machine ρ) (t : Tree) :
    ((m.execute o t).machine.bindings = m.bindings ∧ (m.execute o t).machine.supply = m.supply) ∨
      ∃ token stack operation i, t = .atom token ∧ Token.classify token = .ok (.instruction stack operation) ∧
        o.resolve stack operation token = .ok i ∧ (m.execute o t).machine = (i.run o m).machine := by
  have hpush : ∀ (m : Machine ρ) (k : Kind) (x : k.Item),
      (m.pushEnabled o k x).bindings = m.bindings ∧ (m.pushEnabled o k x).supply = m.supply := fun m k x => by
    unfold pushEnabled; split <;> exact ⟨rfl, rfl⟩
  cases t with
  | list items => exact .inl ⟨rfl, rfl⟩
  | atom token =>
    rw [execute]
    split
    · exact .inl ⟨rfl, rfl⟩
    · exact .inl (hpush m _ _)
    · exact .inl (hpush m _ _)
    · exact .inl (hpush m _ _)
    · simp only [executeName, Outcome.machine]
      split
      · exact .inl (hpush _ _ _)
      · split
        · exact .inl ⟨rfl, rfl⟩
        · exact .inl (hpush m _ _)
    · rename_i stack operation hc
      split
      · exact .inl ⟨rfl, rfl⟩
      · rename_i i hr
        refine .inr ⟨token, stack, operation, i, rfl, hc, hr, ?_⟩
        split <;> (rename_i h; rw [h]; rfl)

theorem Spelled.execute (h : m.Spelled) {t : Tree} (ht : t.WellFormed) : (m.execute o t).machine.Spelled := by
  rcases execute_cases o m t with ⟨hb, hs⟩ | ⟨token, stack, operation, i, rfl, hc, hr, heq⟩
  · refine ⟨fun k x hx => ?_, by rw [hb]; exact h.bound, by rw [hs]; exact h.minted⟩
    rcases execute_origin o m t k x hx with hold | hg
    · exact h.items k x hold
    · cases hg with
      | item hu => exact Tree.wellFormed_list.1 ht _ hu
      | integer | float | boolean => trivial
      | name hc =>
        rw [Token.eq_lower_of_classify hc]
        exact Text.isToken_lower (Tree.wellFormed_atom.1 ht)
      | bound _ hl => exact h.of_lookup hl
      | made _ _ hmk => exact h.of_makes hmk
  · rw [heq]
    exact h.run (Options.resolve_eq_ok hr).2.2.2

omit [RandomSource ρ] in
theorem Spelled.popped (h : m.Spelled) {t : Tree} {rest : Stack Tree} (he : m.exec = t :: rest) :
    (m.popped rest).Spelled := ⟨h.items.popped he, h.bound, h.minted⟩

theorem Spelled.step (h : m.Spelled) {out : Outcome Stop ρ} (hs : m.step o = some out) : out.machine.Spelled := by
  obtain ⟨t, rest, he, rfl, -⟩ := step_origin hs
  have hexec : ∀ t ∈ m.exec, t.WellFormed := h.items .exec
  exact (h.popped he).execute (hexec t (by rw [he]; exact List.mem_cons_self))

/-! ## Sessions -/

omit [RandomSource ρ] in
theorem spelled_initial (source : ρ) : (initial source).Spelled where
  items k x hx := by cases k <;> cases hx
  bound _ he := by cases he
  minted _ hn := by cases hn

omit [RandomSource ρ] in
theorem Spelled.start (h : m.Spelled) {t : Tree} (ht : t.WellFormed) : ((m.start o t).load t).Spelled := by
  have hreset : m.reset.Every Kind.Spelled := h.items.congr rfl
  unfold Machine.start
  dsimp only
  split
  · have hcode : (m.reset.setStack .code (t :: m.reset.code)).Every Kind.Spelled := hreset.push (k := .code) ht
    exact ⟨hcode.push (k := .exec) ht, h.bound, h.minted⟩
  · exact ⟨hreset.push (k := .exec) ht, h.bound, h.minted⟩

omit [RandomSource ρ] in
theorem Spelled.finish (h : m.Spelled) : (m.finish o).Spelled := by
  unfold Machine.finish
  split
  · exact ⟨h.items.sublist (k := .code) fun _ ht => List.mem_of_mem_tail ht, h.bound, h.minted⟩
  · exact h

end Machine
end PushMachine
