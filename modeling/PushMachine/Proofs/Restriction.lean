import PushMachine.Machine.View
import PushMachine.Proofs.Interpreter.Session
import PushMachine.Proofs.RandomLeaves
/-!
# Restriction to enabled types

The options say which stacks an interpreter is built with, and it never has others.  An instruction that is allowed finds
every stack that it looks up: what is not its own it first asks for, and if something is missing then it does nothing
(`Instruction.act_of_not_meets`).  Without NAME no name is ever protected and none is generated either, which is an
invariant of sessions (`Machine.kept_nameless`).
-/
namespace PushMachine

variable {ρ : Type} {o : Options}

/-- The stack that a literal goes onto. -/
def Token.literalKind? : Token → Option Kind
  | .integer _               => some .integer
  | .float _                 => some .float
  | .boolean _               => some .boolean
  | .instruction .. | .name _ => none

/-- **Nothing is stored for a type that is not enabled**: its stack is not there, and without NAME no name is protected
and none was generated. -/
structure Interpreter.Confined (o : Options) (it : Interpreter ρ) : Prop where
  fits    : it.Fits o
  quoting : it.has .name = false → it.quoting = false
  minted  : it.has .name = false → it.supply.minted = []

/-! ## Names without NAME -/

namespace Machine

/-- Without NAME no name is protected, and none was generated. -/
def Nameless (o : Options) (m : Machine ρ) : Prop :=
  o.enables .name = false → m.quoting = false ∧ m.supply.minted = []

section Nameless

variable {m : Machine ρ}

theorem Nameless.congr (h : m.Nameless o) {m' : Machine ρ} (hq : m'.quoting = m.quoting) (hs : m'.supply = m.supply) :
    m'.Nameless o := fun hn => by
  rw [hq, hs]
  exact h hn

theorem Nameless.unprotected (h : m.Nameless o) {m' : Machine ρ} (hq : m'.quoting = false) (hs : m'.supply = m.supply) :
    m'.Nameless o := fun hn => ⟨hq, by rw [hs]; exact (h hn).2⟩

theorem nameless_initial (o : Options) (source : ρ) : (initial source).Nameless o := fun _ => ⟨rfl, rfl⟩

theorem Nameless.pushEnabled (h : m.Nameless o) (k : Kind) (x : k.Item) : (m.pushEnabled o k x).Nameless o := by
  unfold Machine.pushEnabled
  split
  · exact h.congr rfl rfl
  · exact h

theorem Nameless.start (h : m.Nameless o) (t : Tree) : (m.start o t).Nameless o := by
  unfold Machine.start
  dsimp only
  split <;> exact h.unprotected rfl rfl

theorem Nameless.finish (h : m.Nameless o) : (m.finish o).Nameless o := by
  unfold Machine.finish
  split
  · exact h.congr rfl rfl
  · exact h

theorem Nameless.executeName (h : m.Nameless o) (name : String) : (m.executeName o name).Nameless o := by
  have hread : Nameless o { m with quoting := false } := h.unprotected rfl rfl
  rw [Machine.executeName]
  split
  · exact hread.pushEnabled .name name
  · split
    · exact h.congr rfl rfl
    · exact h.pushEnabled .name name

variable [RandomSource ρ]

/-- Only instructions of NAME protect a name, and a name is generated only where NAME is enabled. -/
theorem Nameless.run (h : m.Nameless o) {i : Instruction} (ha : o.allows i = true) : (i.run o m).machine.Nameless o := by
  intro hn
  obtain ⟨hquoting, hminted⟩ := h hn
  have hprotects : i.protects = false := by
    cases hp : i.protects with
    | false => rfl
    | true =>
      obtain rfl : i = .name .quote := by
        unfold Instruction.protects at hp
        split at hp
        · rfl
        · cases hp
      have hname : o.enables .name = true := (Bool.and_eq_true_iff.1 ha).1
      rw [hname] at hn
      cases hn
  obtain ⟨new, he, -, hnone⟩ := (Instruction.run_supply ha m).minted
  refine ⟨by rw [(i.run_frame o m).quoting hprotects, hquoting], ?_⟩
  rw [he, hnone hn, hminted]
  rfl

theorem Nameless.execute (h : m.Nameless o) (t : Tree) : (m.execute o t).machine.Nameless o :=
  execute_induction h (fun _ => h.congr rfl rfl) h.pushEnabled h.executeName (fun _ ha => h.run ha) t

theorem kept_nameless (o : Options) : Kept o (Nameless (ρ := ρ) o) where
  step m out h hs := by
    obtain ⟨t, rest, -, rfl, -⟩ := step_origin hs
    have hpopped : (m.popped rest).Nameless o := h.congr rfl rfl
    exact hpopped.execute t
  execute _ t h := h.execute t
  load _ _ h := h.congr rfl rfl
  start _ t h := h.start t
  finish _ h := h.finish
  reset _ h := h.unprotected rfl rfl
  flush _ h := h.congr rfl rfl
  define _ _ _ h := h.congr rfl rfl

end Nameless
end Machine

namespace Interpreter

variable {it : Interpreter ρ}

theorem confined_of_keeps (h : it.Keeps o (Machine.Nameless o)) : it.Confined o where
  fits := h.fits
  quoting hn := (h.state (by rw [← h.fits.has_eq, hn])).1
  minted hn := (h.state (by rw [← h.fits.has_eq, hn])).2

/-! ## Instructions -/

section Act

variable [RandomSource ρ] {i : Instruction}

theorem Fits.act_eq (h : it.Fits o) (hi : i ∈ Instruction.all) (ha : o.allows i = true) :
    i.act o it = (i.run o it.machine).result .fault o := by
  have hact := Instruction.act_interpreter h.vacant hi ha
  rwa [h.interpreter_machine] at hact

/-- An instruction that is allowed finds all that it looks up. -/
theorem Fits.act_found (h : it.Fits o) (hi : i ∈ Instruction.all) (ha : o.allows i = true) {halt : Halt}
    (hact : (i.act o it).1 = .error halt) : ∃ f, halt = .fault f := by
  rw [h.act_eq hi ha] at hact
  cases hrun : i.run o it.machine with
  | next m => rw [hrun] at hact; cases hact
  | stop f m =>
    rw [hrun] at hact
    cases hact
    exact ⟨f, rfl⟩

/-- The stacks that it does not use are nothing to it. -/
theorem Fits.act_put (h : it.Fits o) (hi : i ∈ Instruction.all) (ha : o.allows i = true) {k : Kind} (hk : k ∉ i.uses)
    (hthere : it.has k = true) (xs : Stack k.Item) :
    i.act o (it.put k xs) = ((i.act o it).1, (i.act o it).2.put k xs) := by
  have he : o.enables k = true := by rw [← h.has_eq, hthere]
  have hput : it.put k xs = (it.machine.setStack k xs).interpreter o := by
    conv_lhs => rw [← h.interpreter_machine]
    exact Machine.put_interpreter he _ xs
  rw [hput, Instruction.act_interpreter (h.vacant.setStack he xs) hi ha, h.act_eq hi ha, i.run_setStack o _ xs hk]
  cases i.run o it.machine with
  | next m | stop f m => exact congrArg (Prod.mk _) (Machine.put_interpreter he m xs).symm

end Act

/-! ## What is dropped -/

section Dropped

variable {k : Kind} {rest : Stack Tree} {token : String}

theorem has_popped (hk : k ≠ .exec) (it : Interpreter ρ) (rest : Stack Tree) : (it.popped rest).has k = it.has k :=
  congrArg Option.isSome (it.toRack.get?_set_of_ne hk rest)

theorem offer_of_not_has (h : it.has k = false) (x : k.Item) : Effect.offer k x it = (.ok (), it) := by
  rw [Effect.offer, h]
  rfl

variable [RandomSource ρ]

/-- A literal of a type that is not enabled goes nowhere. -/
theorem execute_of_literal {v : Token} (hc : Token.classify token = .ok v) (hv : v.literalKind? = some k)
    (hk : it.has k = false) : execute o (.atom token) it = (.ok (), it) := by
  rw [execute, hc]
  cases v with
  | integer n | float n | boolean n => cases hv; exact offer_of_not_has hk n
  | instruction | name => cases hv

/-- Without NAME, neither does a name that is not bound. -/
theorem execute_of_name {name : String} (hc : Token.classify token = .ok (.name name)) (hq : it.quoting = false)
    (hb : it.bindings.lookup name = none) (hn : it.has .name = false) :
    execute o (.atom token) it = (.ok (), it) := by
  rw [execute, hc]
  simp only [executeName, hq, hb, Bool.false_eq_true, if_false]
  exact offer_of_not_has hn name

theorem step_of_dropped {t : Tree} (he : it.get? .exec = some (t :: rest))
    (hx : execute o t (it.popped rest) = (.ok (), it.popped rest)) : it.step o = some (trace o (it.popped rest)) := by
  rw [step, he]
  exact congrArg some (Effect.bind_ok hx)

end Dropped

/-! ## The restriction -/

/-- **An interpreter has no stacks but those of the enabled types, and needs no others.** -/
structure Restricted (ρ : Type) [RandomSource ρ] (o : Options) : Prop where
  /-- A new interpreter has EXEC and the stacks of the enabled types. -/
  built     : ∀ (source : ρ) k, (build o source).has k = true ↔ k = .exec ∨ o.typeEnabled k.label = true
  /-- No operation changes which stacks are there, -/
  kept      : ∀ it : Interpreter ρ, it.Fits o → ∀ op k, (perform o op it).2.has k = it.has k
  /-- and none looks up a stack that is not there or takes an item that is not there. -/
  found     : ∀ it : Interpreter ρ, it.Fits o → ∀ op k,
    (perform o op it).1 ≠ .error (.missing k) ∧ (perform o op it).1 ≠ .error (.short k)
  /-- Nor does an instruction that is allowed. -/
  looked    : ∀ it : Interpreter ρ, it.Fits o → ∀ i ∈ Instruction.all, o.allows i = true → ∀ k,
    (i.act o it).1 ≠ .error (.missing k) ∧ (i.act o it).1 ≠ .error (.short k)
  /-- If it finds what it asks for, then all stacks that it uses are there, -/
  used      : ∀ it : Interpreter ρ, it.Fits o → ∀ i, o.allows i = true → it.Meets i.needs → ∀ k ∈ i.uses, it.has k = true
  /-- if it misses something, then it does nothing, -/
  idle      : ∀ (it : Interpreter ρ) (i : Instruction), ¬ it.Meets i.needs → i.act o it = (.ok (), it)
  /-- and what is on the other stacks is nothing to it. -/
  blind     : ∀ it : Interpreter ρ, it.Fits o → ∀ i ∈ Instruction.all, o.allows i = true → ∀ k, k ∉ i.uses →
    it.has k = true → ∀ xs : Stack k.Item, i.act o (it.put k xs) = ((i.act o it).1, (i.act o it).2.put k xs)
  /-- At the end of a session, and wherever an operation pops an item, nothing is stored for another type. -/
  confined  : ∀ (source : ρ) ops, ((build o source).performAll o ops).Confined o ∧
    ∀ op, ∀ p ∈ ((build o source).performAll o ops).performPops o op, p.Confined o
  /-- A literal of another type costs a step and does nothing else, -/
  literal   : ∀ (it : Interpreter ρ) token rest v k, it.get? .exec = some (.atom token :: rest) →
    Token.classify token = .ok v → v.literalKind? = some k → it.has k = false →
    it.step o = some (trace o (it.popped rest))
  /-- and so does a name that is not bound, without NAME. -/
  name      : ∀ (it : Interpreter ρ) token rest name, it.Confined o → it.get? .exec = some (.atom token :: rest) →
    Token.classify token = .ok (.name name) → it.bindings.lookup name = none → it.has .name = false →
    it.step o = some (trace o (it.popped rest))

/-- **The restriction to enabled types is airtight.** -/
theorem restricted (ρ : Type) [RandomSource ρ] (o : Options) : Restricted ρ o where
  built source k := by
    have hfits := (keeps_build (P := fun _ => True) o source trivial).fits
    rw [hfits k]
    exact Options.mem_kinds_iff
  kept it h op k := by rw [(h.perform op).has_eq, h.has_eq]
  found it h op k := by
    refine ⟨fun hp => ?_, fun hp => ?_⟩ <;>
    · obtain ⟨_ | _, hstop⟩ := h.perform_eq_error hp <;> cases hstop
  looked it h i hi ha k := by
    refine ⟨fun hact => ?_, fun hact => ?_⟩ <;>
    · obtain ⟨f, hf⟩ := h.act_found hi ha hact
      cases hf
  used it h i ha hmeets k hk := by
    rw [← h.interpreter_machine] at hmeets
    rw [h.has_eq]
    exact Machine.enables_of_mem_uses ha hmeets k hk
  idle it i hmiss := Effect.guarded_of_not_meets hmiss _
  blind it h i hi ha k hk hthere xs := h.act_put hi ha hk hthere xs
  confined source ops := by
    have hend : ((build o source).performAll o ops).Keeps o (Machine.Nameless o) :=
      (keeps_build o source (Machine.nameless_initial o source)).performAll (Machine.kept_nameless o) ops
    refine ⟨confined_of_keeps hend, fun op p hp => confined_of_keeps ?_⟩
    exact (hend.perform (Machine.kept_nameless o) op).1 p hp
  literal it token rest v k he hc hv hk := by
    have hne : k ≠ .exec := by
      rintro rfl
      cases v <;> cases hv
    exact step_of_dropped he (execute_of_literal hc hv (by rw [has_popped hne, hk]))
  name it token rest name h he hc hb hn := by
    have hn' : (it.popped rest).has .name = false := by rw [has_popped (by decide), hn]
    exact step_of_dropped he (execute_of_name hc (h.quoting hn) hb hn')

example : ({ types := ["integer", "name"] } : Options).kinds = [.integer, .name, .exec] := by decide

end Interpreter
end PushMachine
