import PushMachine.Proofs.Call
import PushMachine.Proofs.Interpreter.Run
import PushMachine.Proofs.Lexical
import PushMachine.Proofs.RandomLeaves
import PushMachine.Proofs.Referring
/-!
# Where a token that aborts comes from

Trees move between EXEC, CODE and the bindings, and some are made on the way: from values, by the random source, and
by the instructions that write loops.  `Options.Source` lists where a token of them can come from.  No step brings in
another (`Sourced.step`), so neither does a call.  Of these sources only two can abort: the trees that were given, and
the three instructions that others write into a program whether they are allowed or not (`Source.blamed`).
-/
namespace PushMachine

variable {ρ : Type}

/-- The instructions whose tokens `exec.do*count`, `exec.do*times` and `code.do` write into a program. -/
def Instruction.inserted : List Instruction := [.exec .doRange, .stack .integer .pop, .stack .code .pop]

/-- **Where a token of a session can come from.** -/
inductive Options.Source (o : Options) (given : List Tree) : String → Prop
  | given {t : Tree} {token : String} : t ∈ given → token ∈ t.tokens → Source o given token
  | allowed {i : Instruction} : i ∈ Instruction.all → o.allows i = true → Source o given i.token
  | inserted {i : Instruction} : i ∈ Instruction.inserted → o.enables i.kind = true → Source o given i.token
  | integer (n : Int) : Source o given n.repr
  | float (x : Float) : Source o given (Number.floatText x)
  | boolean (b : Bool) : Source o given (if b then "true" else "false")
  | name {name : String} : Pointless name.toList → Source o given name

open Options (Source)

/-- A tree of such tokens. -/
def Tree.Sourced (o : Options) (given : List Tree) (t : Tree) : Prop := ∀ token ∈ t.tokens, Source o given token

/-- What a stack may hold: trees of such tokens, and names without a point. -/
def Kind.Sourced (o : Options) (given : List Tree) : (k : Kind) → k.Item → Prop
  | .name, s => Pointless s.toList
  | .exec, t => t.Sourced o given
  | .code, t => t.Sourced o given
  | _,     _ => True

variable {o : Options} {given : List Tree}

namespace Tree

theorem sourced_atom {token : String} : (Tree.atom token).Sourced o given ↔ Source o given token := forall_tokens_atom

theorem sourced_list {ts : List Tree} : (Tree.list ts).Sourced o given ↔ ∀ t ∈ ts, t.Sourced o given :=
  forall_tokens_list

theorem sourced_of_mem {t : Tree} (h : t ∈ given) : t.Sourced o given := fun _ htoken => .given h htoken

theorem sourced_ofItem {k : Kind} {x : k.Item} (hx : k.Sourced o given x) {t : Tree} (h : ofItem k x = .ok t) :
    t.Sourced o given := by
  cases k with
  | integer =>
    obtain ⟨-, rfl⟩ := ofInteger_eq_ok_iff.1 h
    exact sourced_atom.2 (.integer x)
  | float => cases h; exact sourced_atom.2 (.float x)
  | boolean => cases h; exact sourced_atom.2 (.boolean x)
  | name =>
    rw [ofItem, ofToken] at h
    split at h
    · cases h
    · split at h
      · cases h
        exact sourced_atom.2 (.name hx)
      · cases h
  | exec | code => cases h; exact hx

theorem sourced_rangeLoop {first last : Int} {body : Tree} (hbody : body.Sourced o given) :
    (ExecOp.rangeLoop first last body).Sourced o given := by
  have hrange : ExecOp.rangeToken.Sourced o given :=
    sourced_atom.2 (.inserted (i := .exec .doRange) (by decide) o.enables_exec)
  refine sourced_list.2 ?_
  simp only [List.forall_mem_cons]
  exact ⟨sourced_atom.2 (.integer first), sourced_atom.2 (.integer last), hrange, hbody, List.forall_mem_nil _⟩

theorem sourced_withoutIndex (hint : o.enables .integer = true) {body : Tree} (hbody : body.Sourced o given) :
    (ExecOp.withoutIndex body).Sourced o given := by
  have hdrop : ExecOp.dropIndexToken.Sourced o given :=
    sourced_atom.2 (.inserted (i := .stack .integer .pop) (by decide) hint)
  refine sourced_list.2 (List.forall_mem_cons.2 ⟨hdrop, fun t ht token htoken => hbody token ?_⟩)
  rw [← body.tokens_items]
  exact tokens_subset_of_mem ht htoken

theorem sourced_of_leaves {minted : List String} (hminted : ∀ name ∈ minted, Supply.IsMinted name) {t : Tree}
    (h : RandomCode.Leaves o minted t) : t.Sourced o given := by
  intro token htoken
  cases h token htoken with
  | instruction hi ha => exact .allowed hi ha
  | integer => exact .integer _
  | float x => exact .float x
  | boolean b => exact .boolean b
  | name _ hn => exact .name (hminted _ hn).pointless

end Tree

theorem Supply.Extends.isMinted {names : Bool} {s s' : Supply ρ} (h : s.Extends names s')
    (hs : ∀ name ∈ s.minted, IsMinted name) : ∀ name ∈ s'.minted, IsMinted name := by
  obtain ⟨new, he, hnew, -⟩ := h.minted
  rw [he]
  exact List.forall_mem_append.2 ⟨hs, hnew⟩

namespace Machine

/-- **Everything in the machine has a source.** -/
structure Sourced (o : Options) (given : List Tree) (m : Machine ρ) : Prop where
  vacant : m.Vacant o
  items  : m.Every (Kind.Sourced o given)
  bound  : ∀ e ∈ m.bindings.entries, Pointless e.1.toList ∧ e.2.Sourced o given
  minted : ∀ name ∈ m.supply.minted, Supply.IsMinted name

variable {m : Machine ρ}

theorem Sourced.of_lookup (h : m.Sourced o given) {name : String} {t : Tree} (hl : m.bindings.lookup name = some t) :
    t.Sourced o given := by
  obtain ⟨key, hk⟩ := Bindings.mem_entries_of_lookup hl
  exact (h.bound _ hk).2

theorem Sourced.load (h : m.Sourced o given) {t : Tree} (ht : t.Sourced o given) : (m.load t).Sourced o given :=
  ⟨h.vacant.load t, h.items.push (k := .exec) ht, h.bound, h.minted⟩

theorem Sourced.start (h : m.Sourced o given) {t : Tree} (ht : t.Sourced o given) : (m.start o t).Sourced o given := by
  have hvacant := h.vacant.start t
  have hreset : m.reset.Every (Kind.Sourced o given) := h.items.congr rfl
  unfold Machine.start at hvacant ⊢
  dsimp only at hvacant ⊢
  split
  · rename_i hp
    rw [if_pos hp] at hvacant
    exact ⟨hvacant, hreset.push (k := .code) ht, h.bound, h.minted⟩
  · rename_i hp
    rw [if_neg hp] at hvacant
    exact ⟨hvacant, hreset, h.bound, h.minted⟩

theorem Sourced.exec_head (h : m.Sourced o given) {t : Tree} {rest : Stack Tree} (he : m.exec = t :: rest) :
    t.Sourced o given :=
  h.items .exec t (by rw [stack, Stacks.get, he]; exact List.mem_cons_self)

theorem Sourced.popped (h : m.Sourced o given) {t : Tree} {rest : Stack Tree} (he : m.exec = t :: rest) :
    (m.popped rest).Sourced o given := ⟨h.vacant.popped rest, h.items.popped he, h.bound, h.minted⟩

theorem Sourced.finish (h : m.Sourced o given) : (m.finish o).Sourced o given := by
  have hvacant := h.vacant.finish
  unfold Machine.finish at hvacant ⊢
  split
  · rename_i hp
    rw [if_pos hp] at hvacant
    exact ⟨hvacant, h.items.sublist (k := .code) fun _ ht => List.mem_of_mem_tail ht, h.bound, h.minted⟩
  · exact h

theorem sourced_initial (o : Options) (given : List Tree) (source : ρ) : (initial source).Sourced o given where
  vacant := vacant_initial o source
  items k x hx := by cases k <;> cases hx
  bound _ he := by cases he
  minted _ hn := by cases hn

variable [RandomSource ρ]

theorem Sourced.of_makes (h : m.Sourced o given) {i : Instruction} (hi : i ∈ Instruction.all) (ha : o.allows i = true)
    {k : Kind} {x : k.Item} (hmk : i.Makes o m k x) : k.Sourced o given x := by
  have hexec : ∀ t ∈ m.exec, t.Sourced o given := h.items .exec
  have hcode : ∀ t ∈ m.code, t.Sourced o given := h.items .code
  cases hmk with
  | float | boolean | depth | wrapped | remainder | truth | clamped | drawn | length | size => trivial
  | minted hn => exact ((Supply.newName_left (E := fun _ => True) trivial m.supply).value _ hn).1.pointless
  | chosen hn =>
    obtain ⟨e, he, rfl⟩ := List.mem_map.1 hn
    exact (h.bound e he).1
  | pair hb hc =>
    refine Tree.sourced_list.2 ?_
    simp only [List.forall_mem_cons]
    exact ⟨hexec _ hb, hexec _ hc, List.forall_mem_nil _⟩
  | recursion ht =>
    -- the instruction that runs is allowed, and it is the one that it writes
    have hself : ExecOp.recurToken.Sourced o given := Tree.sourced_atom.2 (.allowed hi ha)
    refine Tree.sourced_list.2 ?_
    simp only [List.forall_mem_cons]
    exact ⟨hself, hexec _ ht, List.forall_mem_nil _⟩
  | range _ _ _ hb => exact Tree.sourced_rangeLoop (hexec _ hb)
  | count _ _ hb => exact Tree.sourced_rangeLoop (hexec _ hb)
  | times hn _ hb =>
    -- there is a number on INTEGER, so the index can be dropped from it
    have hint := h.vacant.stackOk (k := .integer) (Nat.le_refl 1) (List.length_pos_of_mem hn)
    exact Tree.sourced_rangeLoop (Tree.sourced_withoutIndex (stackOk_iff.1 hint).1 (hexec _ hb))
  | executed ht => exact hcode _ ht
  | popping => exact Tree.sourced_atom.2 (.inserted (i := .stack .code .pop) (by decide) (Bool.and_eq_true_iff.1 ha).1)
  | built _ htokens =>
    intro token htoken
    obtain ⟨u, hu, hmem⟩ := htokens token htoken
    exact hcode u hu token hmem
  | part hu _ htokens => exact fun token htoken => hcode _ hu token (htokens htoken)
  | recalled _ hl => exact h.of_lookup hl
  | quoted ht _ => exact hexec _ ht
  | @converted op k x t _ _ hx ht => exact Tree.sourced_ofItem (h.items k x hx) ht
  | @generated n t ht _ =>
    have hleft := RandomCode.upTo_left (o := o) (CodeOp.randomLimit o n) m.supply
    exact Tree.sourced_of_leaves (hleft.supply.isMinted h.minted) (hleft.value t ht)

/-- **An allowed instruction brings in no other token.** -/
theorem Sourced.run (h : m.Sourced o given) {i : Instruction} (hi : i ∈ Instruction.all) (ha : o.allows i = true) :
    (i.run o m).machine.Sourced o given where
  vacant := h.vacant.run ha
  items k x hx := by
    rcases i.run_origin o m k x hx with hold | hmk
    · exact h.items k x hold
    · exact h.of_makes hi ha hmk
  bound e he := by
    rcases i.run_bindings o m e he with hold | ⟨k, rfl, key, hkey, x, hx, hname, htree⟩
    · exact h.bound e hold
    · rw [hname]
      exact ⟨Text.pointless_lower (h.items .name key hkey), Tree.sourced_ofItem (h.items k x hx) htree⟩
  minted := (Instruction.run_supply ha m).isMinted h.minted

theorem Sourced.execute (h : m.Sourced o given) {t : Tree} (ht : t.Sourced o given) :
    (m.execute o t).machine.Sourced o given := by
  rcases execute_cases o m t with ⟨hb, hs⟩ | ⟨token, stack, operation, i, rfl, hc, hr, heq⟩
  · refine ⟨h.vacant.execute t, fun k x hx => ?_, by rw [hb]; exact h.bound, by rw [hs]; exact h.minted⟩
    rcases execute_origin o m t k x hx with hold | hg
    · exact h.items k x hold
    · cases hg with
      | item hu => exact Tree.sourced_list.1 ht _ hu
      | integer | float | boolean => trivial
      | name hc => exact Token.pointless_of_classify hc
      | bound _ hl => exact h.of_lookup hl
      | made _ hr hmk =>
        obtain ⟨hi, -, -, ha⟩ := Options.resolve_eq_ok hr
        exact h.of_makes hi ha hmk
  · obtain ⟨hi, -, -, ha⟩ := Options.resolve_eq_ok hr
    rw [heq]
    exact h.run hi ha

/-- **Neither does a step.** -/
theorem Sourced.step (h : m.Sourced o given) {out : Outcome Stop ρ} (hs : m.step o = some out) :
    out.machine.Sourced o given := by
  obtain ⟨t, rest, he, rfl, -⟩ := step_origin hs
  exact (h.popped he).execute (h.exec_head he)

/-- **Nor does a call**, beside the tree that it is given. -/
theorem Sourced.call (h : m.Sourced o given) {op : Operation} (hcall : op.isCall = true)
    (hgiven : ∀ t ∈ op.tree?, t ∈ given) :
    (∀ p ∈ m.callPops o op, p.Sourced o given) ∧ (m.perform o op).Sourced o given := by
  have htree : ∀ t ∈ op.tree?, t.Sourced o given := fun t ht => Tree.sourced_of_mem (hgiven t ht)
  exact call_invariant (P := Sourced o given) (fun _ _ hp hs => hp.step hs) (fun _ hp => hp.finish) hcall
    (fun t ht => (h.start (htree t ht)).load (htree t ht)) (fun t ht => h.load (htree t ht)) h

theorem Sourced.calls : ∀ (ops : List Operation) {m : Machine ρ}, m.Sourced o given →
    (∀ op ∈ ops, op.isCall = true) → (∀ op ∈ ops, ∀ t ∈ op.tree?, t ∈ given) → (m.performAll o ops).Sourced o given
  | [],        _, h, _,     _      => h
  | op :: ops, m, h, hcall, hgiven => by
    obtain ⟨hop, hops⟩ := List.forall_mem_cons.1 hcall
    obtain ⟨htree, htrees⟩ := List.forall_mem_cons.1 hgiven
    exact Sourced.calls ops (h.call hop htree).2 hops htrees

end Machine

/-! ## What aborts -/

/-- **What an abort can be put down to**: a token that was given, or, if an instruction is missing, one that was written
into the program and is not among those allowed. -/
inductive Options.Blamed (o : Options) (given : List Tree) : Abort → Prop
  | given {t : Tree} {a : Abort} : t ∈ given → a.token ∈ t.tokens → Blamed o given a
  | inserted {stack operation token : String} : token ∈ ["exec.do*range", "integer.pop", "code.pop"] →
      o.instructions ≠ [] → token ∉ o.instructions → Blamed o given (.unknownInstruction stack operation token)

theorem Options.Aborts.token_eq {token : String} {a : Abort} (h : o.Aborts token a) : a.token = token := by
  obtain ⟨stack, operation, -, hr⟩ := h
  rcases (o.resolve_eq_error_iff _ _ _ _).1 hr with ⟨-, rfl⟩ | ⟨-, -, rfl⟩ <;> rfl

theorem Instruction.mem_all_of_inserted {i : Instruction} (h : i ∈ inserted) : i ∈ all := by
  revert i
  decide

theorem Options.Source.blamed {token : String} (h : o.Source given token) {a : Abort} (ha : o.Aborts token a) :
    o.Blamed given a := by
  cases h with
  | given ht htoken =>
    rw [← ha.token_eq] at htoken
    exact .given ht htoken
  | allowed hi hallow => exact absurd ha (not_aborts_of_allows hi hallow)
  | @inserted i hi he =>
    obtain ⟨rfl, hne, hnot⟩ := aborts_token (Instruction.mem_all_of_inserted hi) he ha
    have hmem : i.token ∈ Instruction.inserted.map Instruction.token := List.mem_map_of_mem hi
    exact .inserted hmem hne hnot
  | integer n => exact absurd ha (not_aborts_of_pointless (Number.pointless_repr n))
  | float x => exact absurd ha (not_aborts_floatText x)
  | boolean b => exact absurd ha (not_aborts_of_pointless (by cases b <;> decide))
  | name hp => exact absurd ha (not_aborts_of_pointless hp)

namespace Machine

variable [RandomSource ρ]

theorem Sourced.blamed {m m' : Machine ρ} (h : m.Sourced o given) {a : Abort}
    (hs : m.step o = some (.stop (.abort a) m')) : o.Blamed given a := by
  obtain ⟨token, stack, operation, rest, ⟨he, hc⟩, hr, -⟩ := step_eq_abort_iff.1 hs
  exact (Tree.sourced_atom.1 (h.exec_head he)).blamed ⟨stack, operation, hc, hr⟩

/-- **A call that aborts, after any others, does so for a token that one of them was given, or for one of the three that
are written into programs if the options leave it out.** -/
theorem blamed_of_aborted (o : Options) (source : ρ) (ops : List Operation) (op : Operation) {a : Abort} {n : Nat}
    (hcalls : ∀ c ∈ ops ++ [op], c.isCall = true)
    (h : ((initial source).performAll o ops).ending? o op = some (.aborted a n)) :
    o.Blamed ((ops ++ [op]).filterMap Operation.tree?) a := by
  have hgiven : ∀ c ∈ ops ++ [op], ∀ t ∈ c.tree?, t ∈ (ops ++ [op]).filterMap Operation.tree? :=
    fun c hc t ht => List.mem_filterMap.2 ⟨c, hc, ht⟩
  obtain ⟨hops, hop⟩ := List.forall_mem_append.1 hcalls
  obtain ⟨htrees, htree⟩ := List.forall_mem_append.1 hgiven
  have hbefore := Sourced.calls ops (sourced_initial o _ source) hops htrees
  obtain ⟨p, hp, m', hs⟩ := ending?_eq_aborted_iff.1 ⟨n, h⟩
  have hpops := (hbefore.call (hop op List.mem_cons_self) (htree op List.mem_cons_self)).1
  exact (hpops p hp).blamed hs

/-- With `exec.do*count` alone, a count aborts on the loop that it writes, though nobody wrote that. -/
theorem blamed_of_aborted_count :
    ((initial (Twister.ofSeed 0)).performAll { instructions := ["exec.do*count"] } [.run "3"]).ending?
        { instructions := ["exec.do*count"] } (.run "exec.do*count a") =
      some (.aborted (.unknownInstruction "exec" "do*range" "exec.do*range") 6) ∧
    (∀ t ∈ [Operation.run "3", .run "exec.do*count a"].filterMap Operation.tree?, "exec.do*range" ∉ t.tokens) ∧
    Options.Blamed { instructions := ["exec.do*count"] }
      ([Operation.run "3", .run "exec.do*count a"].filterMap Operation.tree?)
      (.unknownInstruction "exec" "do*range" "exec.do*range") := by
  have hend : ((initial (Twister.ofSeed 0)).performAll { instructions := ["exec.do*count"] } [.run "3"]).ending?
        { instructions := ["exec.do*count"] } (.run "exec.do*count a") =
      some (.aborted (.unknownInstruction "exec" "do*range" "exec.do*range") 6) := by decide +kernel
  refine ⟨hend, by decide +kernel, ?_⟩
  exact blamed_of_aborted _ _ [.run "3"] (.run "exec.do*count a") (by decide) hend

end Machine
end PushMachine
