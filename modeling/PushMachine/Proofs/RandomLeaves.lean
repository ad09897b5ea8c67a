import PushMachine.Proofs.Frame
import PushMachine.Proofs.Origin
import PushMachine.Proofs.RandomSize
/-!
# The leaves of random code

A supply changes only by names that are minted at its end, and none is minted without NAME.  `RandomCode.Leaf` lists
what a leaf of a random tree can be: an instruction that is allowed, a literal of an enabled type, or a name that was
minted (`upTo_left`).  Nothing else comes out of the random source, whatever it draws.
-/
namespace PushMachine

variable {ρ α β : Type}

namespace Supply

/-- **A minted name**: an underscore and six small letters. -/
def IsMinted (name : String) : Prop :=
  ∃ letters, name = String.ofList ('_' :: letters) ∧ letters.length = nameLength ∧ ∀ c ∈ letters, 'a' ≤ c ∧ c ≤ 'z'

/-- The later supply has the names of the earlier one and then some that were minted, if `names` allows that. -/
structure Extends (names : Bool) (s s' : Supply ρ) : Prop where
  minted : ∃ new, s'.minted = s.minted ++ new ∧ (∀ name ∈ new, IsMinted name) ∧ (names = false → new = [])

namespace Extends

variable {names : Bool} {s₁ s₂ s₃ : Supply ρ}

theorem of_minted_eq (h : s₂.minted = s₁.minted) : s₁.Extends names s₂ :=
  ⟨[], by rw [h, List.append_nil], List.forall_mem_nil _, fun _ => rfl⟩

theorem refl (s : Supply ρ) : s.Extends names s := of_minted_eq rfl

theorem trans (h : s₁.Extends names s₂) (h' : s₂.Extends names s₃) : s₁.Extends names s₃ := by
  obtain ⟨new, he, hn, ho⟩ := h.minted
  obtain ⟨new', he', hn', ho'⟩ := h'.minted
  refine ⟨new ++ new', by rw [he', he, List.append_assoc], List.forall_mem_append.2 ⟨hn, hn'⟩, fun hf => ?_⟩
  rw [ho hf, ho' hf]
  rfl

theorem mem (h : s₁.Extends names s₂) {name : String} (hm : name ∈ s₁.minted) : name ∈ s₂.minted := by
  obtain ⟨new, he, -⟩ := h.minted
  rw [he]
  exact List.mem_append_left new hm

end Extends
end Supply

open Supply (IsMinted)

/-! ## Generators -/

namespace Generator

/-- What a generator leaves: a supply with more names, and a fault with `E` or a value with `P`, which may ask for a
name to be there. -/
structure Left (names : Bool) (E : Fault → Prop) (P : List String → α → Prop) (s : Supply ρ)
    (r : Except Fault α × Supply ρ) : Prop where
  supply : s.Extends names r.2
  value  : ∀ a, r.1 = .ok a → P r.2.minted a
  fault  : ∀ e, r.1 = .error e → E e

variable {names : Bool} {E : Fault → Prop} {P : List String → α → Prop} {Q : List String → β → Prop} {s : Supply ρ}

theorem Left.ok {s' : Supply ρ} (hs : s.Extends names s') {a : α} (h : P s'.minted a) :
    Left names E P s (.ok a, s') where
  supply := hs
  value _ hv := by cases hv; exact h
  fault _ hv := by cases hv

theorem Left.error {s' : Supply ρ} (hs : s.Extends names s') {e : Fault} (he : E e) :
    Left names E P s (.error e, s') where
  supply := hs
  value _ hv := by cases hv
  fault _ hv := by cases hv; exact he

theorem left_ofExcept {x : Except Fault α} (hv : ∀ a, x = .ok a → P s.minted a) (hf : ∀ e, x = .error e → E e) :
    Left names E P s ((ofExcept x : Generator ρ α) s) := by
  cases x with
  | ok a => exact .ok (.refl s) (hv a rfl)
  | error e => exact .error (.refl s) (hf e rfl)

/-- What was drawn before does not matter. -/
theorem Left.of_source (source : ρ) {r : Except Fault α × Supply ρ} (h : Left names E P { s with source := source } r) :
    Left names E P s r := by
  have hsame : s.Extends names { s with source := source } := .of_minted_eq rfl
  exact ⟨hsame.trans h.supply, h.value, h.fault⟩

theorem left_pure {a : α} (h : P s.minted a) : Left names E P s ((pure a : Generator ρ α) s) := .ok (.refl s) h

theorem left_draw {d : ρ → α × ρ} (h : P s.minted (d s.source).1) : Left names E P s (draw d s) where
  supply := .of_minted_eq rfl
  value _ hv := by cases hv; exact h
  fault _ hv := by cases hv

/-- What follows starts from a supply that has grown. -/
theorem Left.bind {g : Generator ρ α} {f : α → Generator ρ β} (hg : Left names E P s (g s))
    (hf : ∀ a s', s.Extends names s' → P s'.minted a → Left names E Q s' (f a s')) :
    Left names E Q s ((g >>= f) s) := by
  rcases h : g s with ⟨e | a, s'⟩
  · rw [h] at hg
    rw [bind_of_error h]
    exact .error hg.supply (hg.fault e rfl)
  · rw [h] at hg
    rw [bind_of_ok h]
    have hleft := hf a s' hg.supply (hg.value a rfl)
    exact ⟨hg.supply.trans hleft.supply, hleft.value, hleft.fault⟩

theorem Left.map {g : Generator ρ α} {f : α → β} (hg : Left names E P s (g s))
    (hf : ∀ minted a, P minted a → Q minted (f a)) : Left names E Q s ((f <$> g) s) := by
  rw [map_eq_pure_bind]
  exact hg.bind fun a s' _ ha => left_pure (hf s'.minted a ha)

/-- A value that was generated keeps its property while the others are. -/
theorem left_mapM (hmono : ∀ (s₁ s₂ : Supply ρ) b, s₁.Extends names s₂ → Q s₁.minted b → Q s₂.minted b)
    {f : α → Generator ρ β} (hf : ∀ a s, Left names E Q s (f a s)) :
    ∀ (as : List α) (s : Supply ρ), Left names E (fun minted bs => ∀ b ∈ bs, Q minted b) s (as.mapM f s)
  | [],      s => by
    rw [List.mapM_nil]
    exact left_pure (List.forall_mem_nil _)
  | a :: as, s => by
    rw [List.mapM_cons]
    refine (hf a s).bind fun b s₁ _ hb => ?_
    refine (left_mapM hmono hf as s₁).bind fun bs s₂ hs hbs => ?_
    exact left_pure (List.forall_mem_cons.2 ⟨hmono s₁ s₂ b hs hb, hbs⟩)

end Generator

open Generator (Left left_pure left_draw left_ofExcept left_mapM)

variable [RandomSource ρ]

/-! ## Names -/

namespace Supply

theorem drawLetters_small : ∀ (n : Nat) (s : ρ),
    (drawLetters n s).1.length = n ∧ ∀ c ∈ (drawLetters n s).1, 'a' ≤ c ∧ c ≤ 'z'
  | 0,     _ => ⟨rfl, List.forall_mem_nil _⟩
  | n + 1, s => by
    have hletter : ∀ i < 26, 'a' ≤ Char.ofNat ('a'.toNat + i) ∧ Char.ofNat ('a'.toNat + i) ≤ 'z' := by decide
    have hlt := Draw.below_lt (n := 26) (by decide) s
    rw [drawLetters]
    generalize Draw.below 26 s = drawn at hlt ⊢
    obtain ⟨i, s'⟩ := drawn
    have hrest := drawLetters_small n s'
    dsimp only
    generalize drawLetters n s' = letters at hrest ⊢
    obtain ⟨cs, s''⟩ := letters
    exact ⟨congrArg (· + 1) hrest.1, List.forall_mem_cons.2 ⟨hletter i hlt, hrest.2⟩⟩

theorem isMinted_drawName (s : ρ) : IsMinted (drawName s).1 := by
  have hletters := drawLetters_small nameLength s
  rw [drawName]
  generalize drawLetters nameLength s = letters at hletters ⊢
  exact ⟨letters.1, rfl, hletters⟩

section Minting

variable {E : Fault → Prop} (hE : E .namesExhausted)

include hE

/-- The name that is given is the one that was added. -/
theorem mint_left : ∀ (tries : Nat) (s : Supply ρ),
    Left true E (fun minted name => IsMinted name ∧ name ∈ minted) s (mint tries s)
  | 0,         s => .error (.refl s) hE
  | tries + 1, s => by
    have hname := isMinted_drawName s.source
    rw [mint]
    dsimp only
    generalize drawName s.source = drawn at hname ⊢
    obtain ⟨name, source⟩ := drawn
    dsimp only at hname ⊢
    split
    · exact .of_source source (mint_left tries _)
    · have hgrown : s.Extends true ⟨s.minted ++ [name], source⟩ :=
        ⟨[name], rfl, List.forall_mem_singleton.2 hname, fun hf => by cases hf⟩
      exact .ok (P := fun minted name => IsMinted name ∧ name ∈ minted) hgrown ⟨hname, by simp⟩

theorem newName_left (s : Supply ρ) : Left true E (fun minted name => IsMinted name ∧ name ∈ minted) s (newName s) :=
  mint_left hE _ s

theorem anyName_left (probability : Float) (s : Supply ρ) :
    Left true E (fun minted name => name ∈ minted) s (anyName probability s) := by
  have hnew : ∀ s : Supply ρ, Left true E (fun minted name => name ∈ minted) s (newName s) := fun s =>
    ⟨(newName_left hE s).supply, fun name hname => ((newName_left hE s).value name hname).2, (newName_left hE s).fault⟩
  rw [anyName]
  split
  · exact hnew s
  · rename_i name names hn
    have hchoose : ∀ source : ρ, (Draw.choose name names source).1 ∈ s.minted := by
      rw [hn]
      exact Draw.choose_mem name names
    generalize Draw.chance probability s.source = drawn
    obtain ⟨fresh, source⟩ := drawn
    refine .of_source source ?_
    dsimp only
    split
    · exact hnew _
    · exact left_draw (P := fun minted name => name ∈ minted) (hchoose source)

end Minting
end Supply

/-! ## Random code -/

namespace RandomCode

/-- **What a leaf of random code can be.** -/
inductive Leaf (o : Options) (minted : List String) : String → Prop
  | instruction {i : Instruction} : i ∈ Instruction.all → o.allows i = true → Leaf o minted i.token
  | integer {n : Int} : o.enables .integer = true →
      (o.minInteger ≤ o.maxInteger → o.minInteger ≤ n ∧ n ≤ o.maxInteger) → Leaf o minted n.repr
  | float (x : Float) : o.enables .float = true → Leaf o minted (Number.floatText x)
  | boolean (b : Bool) : o.enables .boolean = true → Leaf o minted (if b then "true" else "false")
  | name {name : String} : o.enables .name = true → name ∈ minted → Leaf o minted name

/-- How random code can fail: no new name is found, an integer is drawn that is too long to be written, or there is
nothing to draw from. -/
inductive Faulty (o : Options) : Fault → Prop
  | exhausted : Faulty o .namesExhausted
  | tooLong {n : Int} : o.enables .integer = true →
      (o.minInteger ≤ o.maxInteger → o.minInteger ≤ n ∧ n ≤ o.maxInteger) → Number.isWritable n = false →
      Faulty o .integerTooLong
  | empty : o.instructionTokens = [] → Faulty o .emptyRange

/-- A tree of such leaves. -/
def Leaves (o : Options) (minted : List String) (t : Tree) : Prop := ∀ token ∈ t.tokens, Leaf o minted token

theorem Leaf.mono {o : Options} {minted minted' : List String} (hm : ∀ name ∈ minted, name ∈ minted') {token : String}
    (h : Leaf o minted token) : Leaf o minted' token := by
  cases h with
  | instruction hi ha => exact .instruction hi ha
  | integer he hn => exact .integer he hn
  | float x he => exact .float x he
  | boolean b he => exact .boolean b he
  | name he hn => exact .name he (hm _ hn)

variable {o : Options}

theorem constant_left {k : Kind} (hk : k ∈ constantKinds) (he : o.enables k = true) (s : Supply ρ) :
    Left (o.enables .name) (Faulty o) (Leaves o) s (constant o k s) := by
  unfold constant
  split
  · refine (left_draw (P := fun _ n => o.minInteger ≤ o.maxInteger → o.minInteger ≤ n ∧ n ≤ o.maxInteger)
      fun hle => Draw.between_bounds hle s.source).bind fun n s' _ hn => left_ofExcept (fun t ht => ?_) fun e hf => ?_
    · obtain ⟨-, rfl⟩ := Tree.ofInteger_eq_ok_iff.1 ht
      exact Tree.forall_tokens_atom.2 (.integer he hn)
    · obtain ⟨hw, rfl⟩ := Tree.ofInteger_eq_error_iff.1 hf
      exact .tooLong he hn hw
  · exact (left_draw (P := fun _ _ => True) trivial).map fun minted x _ => Tree.forall_tokens_atom.2 (.float x he)
  · exact (left_draw (P := fun _ _ => True) trivial).map fun minted b _ => Tree.forall_tokens_atom.2 (.boolean b he)
  · -- of the types that have constants only NAME is left
    rename_i hi hf hb
    obtain rfl : k = .name := by revert hk hi hf hb; cases k <;> decide
    rw [he]
    exact (Supply.anyName_left .exhausted _ s).map fun minted name hn => Tree.forall_tokens_atom.2 (.name he hn)

theorem leaf_of_mem_instructionTokens {minted : List String} {token : String} (h : token ∈ o.instructionTokens) :
    Leaf o minted token := by
  obtain ⟨p, hp, rfl⟩ := List.mem_map.1 h
  obtain ⟨hcat, ha⟩ := List.mem_filter.1 hp
  obtain ⟨i, hi, rfl⟩ := List.mem_map.1 ((List.mergeSort_perm _ _).mem_iff.1 hcat)
  exact .instruction hi ha

/-- A number past the instructions stands for a type that has constants. -/
theorem enabled_getD {i n : Nat} (hge : n ≤ i) (hlt : i < n + (constantKinds.filter o.enables).length) :
    (constantKinds.filter o.enables).getD (i - n) .name ∈ constantKinds ∧
      o.enables ((constantKinds.filter o.enables).getD (i - n) .name) = true := by
  have hlt : i - n < (constantKinds.filter o.enables).length := by omega
  rw [List.getD_eq_getElem?_getD, List.getElem?_eq_getElem hlt, Option.getD_some]
  exact List.mem_filter.1 (List.getElem_mem hlt)

theorem atom_left (s : Supply ρ) : Left (o.enables .name) (Faulty o) (Leaves o) s (atom o s) := by
  show Left _ _ _ s ((if o.instructionTokens.length + (constantKinds.filter o.enables).length = 0 then _ else _ :
    Generator ρ Tree) s)
  split
  · rename_i hzero
    exact .error (.refl s) (.empty (List.length_eq_zero_iff.1 (by omega)))
  · rename_i hpos
    refine (left_draw (P := fun _ i => i < o.instructionTokens.length + (constantKinds.filter o.enables).length)
      (Draw.below_lt (Nat.pos_of_ne_zero hpos) s.source)).bind fun i s' _ hi => ?_
    cases ht : o.instructionTokens[i]? with
    | some token =>
      have hleaf : Leaf o s'.minted token := leaf_of_mem_instructionTokens (List.mem_of_getElem? ht)
      exact left_pure (Tree.forall_tokens_atom.2 hleaf)
    | none =>
      obtain ⟨hk, he⟩ := enabled_getD (List.getElem?_eq_none_iff.1 ht) hi
      exact constant_left hk he s'

theorem parts_left {names : Bool} {E : Fault → Prop} : ∀ (maxParts : Nat) (n : Int) (s : Supply ρ),
    Left names E (fun _ _ => True) s (parts maxParts n s)
  | 0,            _, _ => left_pure trivial
  | 1,            _, _ => left_pure trivial
  | maxParts + 2, n, s => by
    rw [parts]
    split
    · refine (left_draw (P := fun _ _ => True) trivial).bind fun part s₁ _ _ => ?_
      exact (parts_left (maxParts + 1) (n - part) s₁).bind fun _ _ _ _ => left_pure trivial
    · exact left_pure trivial

theorem treeWithin_left : ∀ (depth : Nat) (size : Int) (s : Supply ρ),
    Left (o.enables .name) (Faulty o) (Leaves o) s (treeWithin o depth size s)
  | 0,         _,    s => atom_left s
  | depth + 1, size, s => by
    have hmono : ∀ (s₁ s₂ : Supply ρ) (t : Tree), s₁.Extends (o.enables .name) s₂ → Leaves o s₁.minted t →
        Leaves o s₂.minted t := fun s₁ s₂ t hs ht token htoken => (ht token htoken).mono fun _ hn => hs.mem hn
    rw [treeWithin]
    split
    · exact atom_left s
    · refine (parts_left _ _ s).bind fun sizes s₁ _ _ => ?_
      refine (left_mapM hmono (treeWithin_left depth) sizes s₁).bind fun items s₂ _ hitems => ?_
      refine (left_draw (P := fun _ shuffled => shuffled.Perm items) (Draw.shuffle_perm items s₂.source)).bind
        fun shuffled s₃ hs hperm => ?_
      exact left_pure (Tree.forall_tokens_list.2 fun t ht => hmono s₂ s₃ t hs (hitems t (hperm.mem_iff.1 ht)))

/-- **Every leaf of a random tree is an allowed instruction, an enabled literal or a minted name.** -/
theorem upTo_left (maxPoints : Int) (s : Supply ρ) :
    Left (o.enables .name) (Faulty o) (Leaves o) s (upTo o maxPoints s) :=
  (left_draw (P := fun _ _ => True) trivial).bind fun _ s' _ _ => treeWithin_left _ _ s'

end RandomCode

/-! ## Machines -/

/-- **What an instruction does to the names**: nothing, or it is one that mints a name or makes random code. -/
theorem Instruction.run_supply_cases (o : Options) (m : Machine ρ) (i : Instruction) :
    (i.run o m).machine.supply.minted = m.supply.minted ∨
      (i = .name .rand ∧ (i.run o m).machine.supply = (Supply.newName m.supply).2) ∨
      (i = .code .rand ∧ ∃ limit, (i.run o m).machine.supply = (RandomCode.upTo o limit m.supply).2) := by
  cases hd : i.draws with
  | false => exact .inl (by rw [(i.run_frame o m).supply hd])
  | true =>
    unfold draws at hd
    split at hd
    · exact .inl rfl
    · exact .inl rfl
    · exact .inl rfl
    · refine .inr (.inl ⟨rfl, ?_⟩)
      simp only [run, NameOp.run, NameOp.newName]
      split <;> (rename_i hn; rw [hn]; rfl)
    · refine .inl ?_
      simp only [run, NameOp.run, NameOp.boundName, Outcome.machine]
      split <;> rfl
    · have hrun : (CodeOp.random o m).machine.supply.minted = m.supply.minted ∨
          ∃ limit, (CodeOp.random o m).machine.supply = (RandomCode.upTo o limit m.supply).2 := by
        unfold CodeOp.random
        split
        · exact .inl rfl
        · rename_i n integers _
          split
          · exact .inl rfl
          · refine .inr ⟨CodeOp.randomLimit o n, ?_⟩
            split <;> (rename_i hn; rw [hn]; rfl)
      exact hrun.imp id fun h => .inr ⟨rfl, h⟩
    · cases hd

/-- **An allowed instruction only adds minted names**, and none without NAME. -/
theorem Instruction.run_supply {o : Options} {i : Instruction} (ha : o.allows i = true) (m : Machine ρ) :
    m.supply.Extends (o.enables .name) (i.run o m).machine.supply := by
  rcases i.run_supply_cases o m with he | ⟨rfl, he⟩ | ⟨-, limit, he⟩
  · exact .of_minted_eq he
  · have hname : o.enables .name = true := (Bool.and_eq_true_iff.1 ha).1
    rw [he, hname]
    exact (Supply.newName_left (E := fun _ => True) trivial m.supply).supply
  · rw [he]
    exact (RandomCode.upTo_left limit m.supply).supply

end PushMachine
