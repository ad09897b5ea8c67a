import PushMachine.Proofs.Provenance
import PushMachine.Proofs.SmallLetters
import PushMachine.Random.Twister
/-!
# What names look like

A name comes to NAME by being executed, by being drawn or by being chosen among the bound ones, and a key comes to the
bindings from NAME.  On all these ways it stays a token in small letters that means itself (`IsName`): executed names
because lower-casing makes nothing else of a name, drawn names because they begin with an underscore.  Every step keeps
this (`Named.step`), so it holds all along a session (`isName_of_session`).
-/
namespace PushMachine

variable {ρ : Type}

/-- **A well-formed name**: a token without a point, in small letters, that means itself. -/
structure IsName (s : String) : Prop where
  /-- It is not empty, and holds neither a blank nor a parenthesis. -/
  token     : Tree.isToken s = true
  pointless : Pointless s.toList
  lower     : Text.lower s = s
  classify  : Token.classify s = .ok (.name s)

/-- What executing a token puts on NAME. -/
theorem isName_of_classify {token name : String} (ht : Tree.isToken token = true)
    (h : Token.classify token = .ok (.name name)) : IsName name where
  token := by
    rw [Token.eq_lower_of_classify h]
    exact Text.isToken_lower ht
  pointless := Token.pointless_of_classify h
  lower := by rw [Token.eq_lower_of_classify h, Text.lower_lower]
  classify := Token.classify_lower h

theorem Supply.IsMinted.isName {name : String} (h : IsMinted name) : IsName name := by
  have htoken := h.isToken
  have hpointless := h.pointless
  obtain ⟨letters, rfl, -, hsmall⟩ := h
  have hsettled : ∀ c ∈ '_' :: letters, Text.Settled c := by
    have hall : ∀ n < 0x7B, 0x61 ≤ (Char.ofNat n).toNat → Text.Settled (Char.ofNat n) := by decide
    refine List.forall_mem_cons.2 ⟨by decide, fun c hc => ?_⟩
    obtain ⟨hlow, hhigh⟩ := hsmall c hc
    have hhigh : c.toNat ≤ 0x7A := hhigh
    exact Text.of_toNat_lt (P := fun c => 0x61 ≤ c.toNat → Text.Settled c) hall (Nat.lt_succ_of_le hhigh) hlow
  have hlower : Text.lower (String.ofList ('_' :: letters)) = String.ofList ('_' :: letters) := by
    rw [Text.lower, String.toList_ofList, Text.lowerChars, Text.lowerFrom_of_settled [] _ hsettled]
  have hne : ∀ c cs, c ≠ '_' → String.ofList ('_' :: letters) ≠ String.ofList (c :: cs) := fun c cs hc he => by
    have hlist := String.ofList_injective he
    exact hc (List.cons.inj hlist).1.symm
  have hboolean : Token.boolean? (String.ofList ('_' :: letters)) = none := by
    rw [Token.boolean?, hlower, if_neg (hne 't' ['r', 'u', 'e'] (by decide)),
      if_neg (hne 'f' ['a', 'l', 's', 'e'] (by decide))]
  have hunderscore : ∃ c ∈ (String.ofList ('_' :: letters)).toList, Token.isNumeric c = false :=
    ⟨'_', by rw [String.toList_ofList]; exact List.mem_cons_self, by decide⟩
  refine ⟨htoken, hpointless, hlower, ?_⟩
  rw [Token.classify_of_not_numeric hunderscore hboolean hpointless, hlower]

namespace Machine

/-- **All names in the machine are well-formed**: those on NAME, those that are bound and those that were generated. -/
structure ProperNames (m : Machine ρ) : Prop where
  names  : ∀ s ∈ m.name, IsName s
  keys   : ∀ s ∈ m.bindings.names, IsName s
  minted : ∀ s ∈ m.supply.minted, IsName s

/-- What a step needs to keep it: also the trees are made of tokens, and the generated names are what is drawn. -/
structure Named (m : Machine ρ) : Prop where
  spelled : m.Spelled
  names   : ∀ s ∈ m.name, IsName s
  keys    : ∀ s ∈ m.bindings.names, IsName s
  minted  : ∀ s ∈ m.supply.minted, Supply.IsMinted s

variable {o : Options} {m : Machine ρ}

theorem Named.proper (h : m.Named) : m.ProperNames := ⟨h.names, h.keys, fun s hs => (h.minted s hs).isName⟩

/-! ## Steps -/

theorem Named.popped (h : m.Named) {t : Tree} {rest : Stack Tree} (he : m.exec = t :: rest) : (m.popped rest).Named :=
  ⟨h.spelled.popped he, h.names, h.keys, h.minted⟩

theorem Named.load (h : m.Named) {t : Tree} (ht : t.WellFormed) : (m.load t).Named :=
  ⟨⟨h.spelled.items.push (k := .exec) ht, h.spelled.bound, h.spelled.minted⟩, h.names, h.keys, h.minted⟩

theorem Named.define (h : m.Named) {name : String} {t : Tree} (hn : IsName (Text.lower name)) (ht : t.WellFormed) :
    (m.define name t).Named where
  spelled := by
    refine ⟨h.spelled.items.congr rfl, fun e he => ?_, h.spelled.minted⟩
    rcases Bindings.mem_put _ he with rfl | he
    · exact ⟨hn.token, ht⟩
    · exact h.spelled.bound e he
  names := h.names
  keys s hs := by
    obtain ⟨e, he, rfl⟩ := List.mem_map.1 hs
    rcases Bindings.mem_put _ he with rfl | he
    · exact hn
    · exact h.keys _ (List.mem_map_of_mem he)
  minted := h.minted

variable [RandomSource ρ]

theorem Named.isName_of_makes (h : m.Named) {i : Instruction} {s : String} (hmk : i.Makes o m .name s) : IsName s := by
  cases hmk with
  | minted hn => exact ((Supply.newName_left (E := fun _ => True) trivial m.supply).value _ hn).1.isName
  | chosen hn => exact h.keys s hn

/-- **An instruction keeps all names well-formed.** -/
theorem Named.run (h : m.Named) {i : Instruction} (hi : i ∈ Instruction.all) (ha : o.allows i = true) :
    (i.run o m).machine.Named where
  spelled := h.spelled.run ha
  names s hs := by
    rcases i.run_origin o m .name s hs with hold | hmk
    · exact h.names s hold
    · exact h.isName_of_makes hmk
  keys s hs := by
    obtain ⟨e, he, rfl⟩ := List.mem_map.1 hs
    rcases i.run_bindings o m e he with hold | ⟨k, rfl, key, hkey, x, hx, hname, htree⟩
    · exact h.keys _ (List.mem_map_of_mem hold)
    · -- lower-casing leaves the name that was popped as it is
      rw [hname, (h.names key hkey).lower]
      exact h.names key hkey
  minted := (Instruction.run_supply ha m).isMinted h.minted

theorem Named.execute (h : m.Named) {t : Tree} (ht : t.WellFormed) : (m.execute o t).machine.Named := by
  rcases execute_cases o m t with ⟨hb, hs⟩ | ⟨token, stack, operation, i, rfl, hc, hr, heq⟩
  · refine ⟨h.spelled.execute ht, fun s hs => ?_, by rw [hb]; exact h.keys, by rw [hs]; exact h.minted⟩
    rcases execute_origin o m t .name s hs with hold | hg
    · exact h.names s hold
    · cases hg with
      | name hc => exact isName_of_classify (Tree.wellFormed_atom.1 ht) hc
      | made _ _ hmk => exact h.isName_of_makes hmk
  · obtain ⟨hi, -, -, ha⟩ := Options.resolve_eq_ok hr
    rw [heq]
    exact h.run hi ha

/-- **So does a step.** -/
theorem Named.step (h : m.Named) {out : Outcome Stop ρ} (hs : m.step o = some out) : out.machine.Named := by
  obtain ⟨t, rest, he, rfl, -⟩ := step_origin hs
  have hexec : ∀ t ∈ m.exec, t.WellFormed := h.spelled.items .exec
  exact (h.popped he).execute (hexec t (by rw [he]; exact List.mem_cons_self))

/-! ## Sessions -/

omit [RandomSource ρ] in
theorem named_initial (source : ρ) : (initial source).Named where
  spelled := spelled_initial source
  names _ h := by cases h
  keys _ h := by cases h
  minted _ h := by cases h

omit [RandomSource ρ] in
theorem Named.reset (h : m.Named) : m.reset.Named :=
  ⟨⟨h.spelled.items.congr rfl, h.spelled.bound, h.spelled.minted⟩, h.names, h.keys, h.minted⟩

omit [RandomSource ρ] in
theorem Named.flush (h : m.Named) : m.flush.Named where
  spelled := ⟨fun k x hx => (by cases k <;> cases hx), h.spelled.bound, h.spelled.minted⟩
  names _ hs := by cases hs
  keys := h.keys
  minted := h.minted

omit [RandomSource ρ] in
theorem Named.start (h : m.Named) {t : Tree} (ht : t.WellFormed) : ((m.start o t).load t).Named := by
  refine ⟨h.spelled.start ht, ?_, ?_, ?_⟩
  all_goals
    unfold Machine.start
    dsimp only
    split
  exacts [h.names, h.names, h.keys, h.keys, h.minted, h.minted]

omit [RandomSource ρ] in
theorem Named.finish (h : m.Named) : (m.finish o).Named := by
  refine ⟨h.spelled.finish, ?_, ?_, ?_⟩
  all_goals
    unfold Machine.finish
    split
  exacts [h.names, h.names, h.keys, h.keys, h.minted, h.minted]

end Machine

/-- What is given to an operation is made of tokens, and a name given to be bound is well-formed in small letters. -/
def Operation.Spelled : Operation → Prop
  | .run _ | .reset | .flush               => True
  | .runTree t | .runCode t | .execute t   => t.WellFormed
  | .define name t                         => IsName (Text.lower name) ∧ t.WellFormed

theorem Operation.Spelled.tree {op : Operation} (h : op.Spelled) : ∀ t ∈ op.tree?, t.WellFormed := by
  cases op with
  | run text =>
    intro t ht
    have hparse : Tree.parse text = .ok t := by
      cases hp : Tree.parse text with
      | error e => rw [tree?, hp] at ht; cases ht
      | ok u => rw [tree?, hp] at ht; cases ht; rfl
    exact Tree.wellFormed_of_parse hparse
  | runTree t | runCode t | execute t => exact fun _ ht => by cases ht; exact h
  | define name t => exact fun _ ht => by cases ht; exact h.2
  | reset | flush => exact fun _ ht => by cases ht

namespace Machine

variable {o : Options} {m : Machine ρ} [RandomSource ρ]

/-- **So does every operation**, and at every machine at which it pops an item. -/
theorem Named.perform (h : m.Named) {op : Operation} (hop : op.Spelled) :
    (∀ p ∈ m.callPops o op, p.Named) ∧ (m.perform o op).Named := by
  have hcall : op.isCall = true → (∀ p ∈ m.callPops o op, p.Named) ∧ (m.perform o op).Named := fun hc =>
    call_invariant (P := Named) (fun _ _ hp hs => hp.step hs) (fun _ hp => hp.finish) hc
      (fun t ht => h.start (hop.tree t ht)) (fun t ht => h.load (hop.tree t ht)) h
  cases op with
  | run | runTree | runCode => exact hcall rfl
  | execute t => exact ⟨List.forall_mem_nil _, h.execute hop⟩
  | reset => exact ⟨List.forall_mem_nil _, h.reset⟩
  | flush => exact ⟨List.forall_mem_nil _, h.flush⟩
  | define name t => exact ⟨List.forall_mem_nil _, h.define hop.1 hop.2⟩

theorem Named.performAll : ∀ {ops : List Operation} {m : Machine ρ}, m.Named → (∀ op ∈ ops, op.Spelled) →
    (m.performAll o ops).Named
  | [],        _, h, _    => h
  | op :: ops, m, h, hops => by
    obtain ⟨hop, hops⟩ := List.forall_mem_cons.1 hops
    exact Named.performAll (m := m.perform o op) (h.perform hop).2 hops

/-! ## Names as code and as keys -/

/-- **Names are taken as they are**: turned into code none of them fails, and each is bound as the very key it is, unless
the item it is to be bound to is an integer that is too long to be written. -/
structure TakesNames (o : Options) (m : Machine ρ) : Prop where
  code : ∃ m', (Instruction.code .fromName).run o m = .next m'
  key  : ∀ k, k ≠ .name → ∀ key ∈ m.name.head?, ∀ x ∈ (m.stack k).head?,
    (∃ t m', Tree.ofItem k x = .ok t ∧ (Instruction.stack k .define).run o m = .next m' ∧
      m'.bindings.entries = Bindings.put key t m.bindings.entries ∧ m'.bindings.lookup key = some t) ∨
    k.writes x = false ∧ ∃ m', (Instruction.stack k .define).run o m = .stop .integerTooLong m'

theorem ProperNames.takesNames (h : m.ProperNames) (o : Options) : m.TakesNames o where
  code := by
    have hname : ∀ s ∈ m.stack .name, IsName s := h.names
    show ∃ m', CodeOp.ofStack .name m = .next m'
    unfold CodeOp.ofStack
    cases hs : m.stack .name with
    | nil => exact ⟨m, rfl⟩
    | cons s names =>
      have hcode : Tree.ofItem .name s = .ok (.atom s) :=
        Tree.ofToken_of_isToken (hname s (by rw [hs]; exact List.mem_cons_self)).token
      simp only [hcode]
      exact ⟨_, rfl⟩
  key k hk key hkey x hx := by
    obtain ⟨names, hn⟩ := List.head?_eq_some_iff.1 hkey
    obtain ⟨xs, hs⟩ := List.head?_eq_some_iff.1 hx
    have hlower : Text.lower key = key := (h.names key (by rw [hn]; exact List.mem_cons_self)).lower
    have hstack : ({ m with name := names } : Machine ρ).stack k = x :: xs := by
      rw [← hs]
      exact m.stack_setStack_of_ne hk (k := .name) names
    have hrun : (Instruction.stack k .define).run o m = StackOp.defineTop k m := rfl
    rcases Tree.ofItem_cases hk x with ⟨t, ht⟩ | ⟨hw, hf⟩
    · refine .inl ⟨t, (({ m with name := names } : Machine ρ).setStack k xs).define key t, ht, ?_, ?_, ?_⟩
      · simp only [hrun, StackOp.defineTop, hn, hstack, ht]
      · show Bindings.put (Text.lower key) t m.bindings.entries = _
        rw [hlower]
      · exact Bindings.lookup_bind_self rfl m.bindings t
    · refine .inr ⟨hw, ({ m with name := names } : Machine ρ).setStack k xs, ?_⟩
      simp only [hrun, StackOp.defineTop, hn, hstack, hf]

/-- **Names are always well-formed.**  Whatever a session does that starts with nothing, then and at every step of a
further operation all names on NAME, all bound names and all generated names are tokens without a point, in small
letters, that mean themselves.  So `code.fromname` never fails, and a `define` binds the very name that it pops. -/
theorem properNames_of_session (o : Options) (source : ρ) (ops : List Operation) (hops : ∀ op ∈ ops, op.Spelled) :
    let m := (initial source).performAll o ops
    m.ProperNames ∧ m.TakesNames o ∧
      ∀ op : Operation, op.Spelled → ∀ p ∈ m.callPops o op,
        p.ProperNames ∧ (p.popped p.exec.tail).ProperNames ∧ (p.popped p.exec.tail).TakesNames o := by
  intro m
  have hm : m.Named := (named_initial source).performAll hops
  refine ⟨hm.proper, hm.proper.takesNames o, fun op hop p hp => ?_⟩
  have hproper := ((hm.perform hop).1 p hp).proper
  have hpopped : (p.popped p.exec.tail).ProperNames := ⟨hproper.names, hproper.keys, hproper.minted⟩
  exact ⟨hproper, hpopped, hpopped.takesNames o⟩

/-- A final sigma, a sign for kelvin and a dotted capital I; the name that begins with the sign for kelvin is bound. -/
theorem properNames_of_session_letters :
    let ops : List Operation := [.run "Inf\u0130 \u212AEY 1 integer.define", .runCode (.atom "\u039F\u03A3")]
    let m := (initial (Twister.ofSeed 0)).performAll {} ops
    (∀ op ∈ ops, op.Spelled) ∧ m.name = ["\u03BF\u03C2", "infi\u0307"] ∧ m.bindings.names = ["key"] ∧
      m.ProperNames := by
  intro ops m
  have htoken : Tree.isToken "\u039F\u03A3" = true := by decide +kernel
  have hops : ∀ op ∈ ops, op.Spelled :=
    List.forall_mem_cons.2 ⟨trivial, List.forall_mem_singleton.2 (Tree.wellFormed_atom.2 htoken)⟩
  exact ⟨hops, by decide +kernel, by decide +kernel, (properNames_of_session {} (Twister.ofSeed 0) ops hops).1⟩

end Machine
end PushMachine
