import PushMachine.Proofs.Nesting
import PushMachine.Proofs.Running
import PushMachine.Random.Twister
/-!
# How long a name is protected

`name.quote` protects the next name, and nothing but a name that is executed uses the protection up: the flag stays
through literals, lists and all other instructions (`quoting_step_of_other`).  Each machine of a run is a step after the
one before it (`step_of_course`), so by induction on the run the flag is set exactly if it was set after the last name
(`quoting_of_course`).
-/
namespace PushMachine

/-! ## Flags that events set and clear -/

section Flag

variable {α : Type} {clears sets : α → Prop} {start : Prop} {a : α} {es : List α}

/-- **A flag after these events**: it was set after the last event that clears it, or there was no such event, and it was
set at the start or since. -/
def FlagSet (clears sets : α → Prop) (start : Prop) (es : List α) : Prop :=
  (∃ us a vs, es = us ++ a :: vs ∧ clears a ∧ (∀ b ∈ vs, ¬ clears b) ∧ ∃ b ∈ vs, sets b) ∨
  ((∀ b ∈ es, ¬ clears b) ∧ (start ∨ ∃ b ∈ es, sets b))

theorem exists_last {p : α → Prop} : ∀ {es : List α}, (∃ a ∈ es, p a) →
    ∃ us a vs, es = us ++ a :: vs ∧ p a ∧ ∀ b ∈ vs, ¬ p b
  | x :: es, h => by
    by_cases hes : ∃ a ∈ es, p a
    · obtain ⟨us, a, vs, rfl, ha, hvs⟩ := exists_last hes
      exact ⟨x :: us, a, vs, rfl, ha, hvs⟩
    · have hnone : ∀ b ∈ es, ¬ p b := fun b hb hp => hes ⟨b, hb, hp⟩
      obtain ⟨a, ha, hp⟩ := h
      rcases List.mem_cons.1 ha with rfl | ha
      · exact ⟨[], a, es, rfl, hp, hnone⟩
      · exact absurd hp (hnone a ha)

theorem flagSet_nil : FlagSet clears sets start [] ↔ start := by
  simp [FlagSet]

/-- Where something comes after an event, the last one is there. -/
theorem exists_eq_concat {us vs : List α} {b : α} (h : es ++ [a] = us ++ b :: vs) (hne : vs ≠ []) :
    ∃ ws, vs = ws ++ [a] ∧ es = us ++ b :: ws := by
  obtain ⟨ws, z, rfl⟩ := (List.eq_nil_or_concat vs).resolve_left hne
  rw [List.concat_eq_append, ← List.cons_append, ← List.append_assoc] at h
  obtain ⟨hes, hlast⟩ := List.append_inj' h rfl
  obtain rfl : a = z := by simpa using hlast
  exact ⟨ws, List.concat_eq_append, hes⟩

theorem not_flagSet_concat (h : clears a) : ¬ FlagSet clears sets start (es ++ [a]) := by
  rintro (⟨us, b, vs, he, -, hnone, c, hc, -⟩ | ⟨hnone, -⟩)
  · obtain ⟨ws, rfl, -⟩ := exists_eq_concat he (List.ne_nil_of_mem hc)
    exact hnone a (by simp) h
  · exact hnone a (by simp) h

theorem flagSet_concat_of_sets (hc : ¬ clears a) (h : sets a) : FlagSet clears sets start (es ++ [a]) := by
  have hlast : ∃ b ∈ es ++ [a], sets b := ⟨a, by simp, h⟩
  by_cases hes : ∃ b ∈ es, clears b
  · obtain ⟨us, b, vs, rfl, hb, hvs⟩ := exists_last hes
    refine .inl ⟨us, b, vs ++ [a], by simp, hb, ?_, a, by simp, h⟩
    exact List.forall_mem_append.2 ⟨hvs, List.forall_mem_singleton.2 hc⟩
  · have hnone : ∀ b ∈ es, ¬ clears b := fun b hb hcb => hes ⟨b, hb, hcb⟩
    exact .inr ⟨List.forall_mem_append.2 ⟨hnone, List.forall_mem_singleton.2 hc⟩, .inr hlast⟩

theorem flagSet_concat_of_neither (hc : ¬ clears a) (hs : ¬ sets a) :
    FlagSet clears sets start (es ++ [a]) ↔ FlagSet clears sets start es := by
  have hsets : ∀ vs : List α, (∃ b ∈ vs ++ [a], sets b) ↔ ∃ b ∈ vs, sets b := fun vs => by
    simp [or_and_right, exists_or, hs]
  have hclears : ∀ vs : List α, (∀ b ∈ vs ++ [a], ¬ clears b) ↔ ∀ b ∈ vs, ¬ clears b := fun vs => by
    simp [or_imp, forall_and, hc]
  constructor
  · rintro (⟨us, b, vs, he, hb, hnone, hset⟩ | ⟨hnone, hset⟩)
    · obtain ⟨c, hmem, -⟩ := id hset
      obtain ⟨ws, rfl, rfl⟩ := exists_eq_concat he (List.ne_nil_of_mem hmem)
      exact .inl ⟨us, b, ws, rfl, hb, (hclears ws).1 hnone, (hsets ws).1 hset⟩
    · exact .inr ⟨(hclears es).1 hnone, by rwa [hsets] at hset⟩
  · rintro (⟨us, b, vs, rfl, hb, hnone, hset⟩ | ⟨hnone, hset⟩)
    · exact .inl ⟨us, b, vs ++ [a], by simp, hb, (hclears vs).2 hnone, (hsets vs).2 hset⟩
    · exact .inr ⟨(hclears es).2 hnone, by rwa [hsets]⟩

end Flag

variable {ρ : Type}

namespace Machine

variable {o : Options} {m : Machine ρ} {token name : String} {rest : Stack Tree}

/-! ## Names that are executed -/

/-- The next item is a name, written `token`. -/
def NextNames (m : Machine ρ) (token name : String) (rest : Stack Tree) : Prop :=
  m.exec = .atom token :: rest ∧ Token.classify token = .ok (.name name)

/-- The next item is a name. -/
def ExecutesName (m : Machine ρ) : Prop := ∃ token name rest, m.NextNames token name rest

/-- NAME with one more name, if it is enabled. -/
def namesWith (o : Options) (m : Machine ρ) (name : String) : Stack String :=
  if o.enables .name then name :: m.name else m.name

/-- **What becomes of a name**: protected or not bound it goes onto NAME, and else the tree that it is bound to takes
its place.  Either way the next name is not protected, and nothing else has changed. -/
structure TakesName (o : Options) (m : Machine ρ) (name : String) (rest : Stack Tree) (m' : Machine ρ) : Prop where
  quoted   : m.quoting = true → m'.exec = rest ∧ m'.name = m.namesWith o name
  bound    : m.quoting = false → ∀ t, m.bindings.lookup name = some t → m'.exec = t :: rest ∧ m'.name = m.name
  unbound  : m.quoting = false → m.bindings.lookup name = none → m'.exec = rest ∧ m'.name = m.namesWith o name
  quoting  : m'.quoting = false
  bindings : m'.bindings = m.bindings
  supply   : m'.supply = m.supply
  others   : ∀ k, k ≠ .name → k ≠ .exec → m'.stack k = m.stack k

theorem pushEnabled_name (o : Options) (m : Machine ρ) (name : String) :
    m.pushEnabled o .name name = { m with name := m.namesWith o name } := by
  unfold pushEnabled namesWith
  split <;> rfl

theorem takesName_executeName (o : Options) (m : Machine ρ) (name : String) :
    TakesName o m name m.exec (m.executeName o name) := by
  cases hq : m.quoting with
  | true =>
    have hset : m.quoting ≠ false := by rw [hq]; decide
    rw [executeName_of_quoting hq, pushEnabled_name]
    exact
      { quoted := fun _ => ⟨rfl, rfl⟩
        bound := fun h => absurd h hset
        unbound := fun h => absurd h hset
        quoting := rfl
        bindings := rfl
        supply := rfl
        others := fun k hn _ => m.stack_setStack_of_ne hn (k := .name) _ }
  | false =>
    have hclear : m.quoting ≠ true := by rw [hq]; decide
    cases hl : m.bindings.lookup name with
    | some t =>
      rw [executeName_of_bound hq hl]
      exact
        { quoted := fun h => absurd h hclear
          bound := fun _ u hu => by
            rw [hl] at hu
            cases hu
            exact ⟨rfl, rfl⟩
          unbound := fun _ hn => by
            rw [hl] at hn
            cases hn
          quoting := hq
          bindings := rfl
          supply := rfl
          others := fun k _ he => m.stack_setStack_of_ne he (k := .exec) _ }
    | none =>
      rw [executeName_of_unbound hq hl, pushEnabled_name]
      exact
        { quoted := fun h => absurd h hclear
          bound := fun _ u hu => by
            rw [hl] at hu
            cases hu
          unbound := fun _ _ => ⟨rfl, rfl⟩
          quoting := hq
          bindings := rfl
          supply := rfl
          others := fun k hn _ => m.stack_setStack_of_ne hn (k := .name) _ }

variable [RandomSource ρ]

/-- **A name never stops a run.** -/
theorem step_of_nextNames (h : m.NextNames token name rest) :
    ∃ m', m.step o = some (.next m') ∧ name = Text.lower token ∧ TakesName o m name rest m' := by
  obtain ⟨he, hc⟩ := h
  have htakes := takesName_executeName o (m.popped rest) name
  refine ⟨(m.popped rest).executeName o name, ?_, Token.eq_lower_of_classify hc, ?_⟩
  · rw [step_of_exec he]
    simp only [execute, hc]
    rfl
  · exact ⟨htakes.quoted, htakes.bound, htakes.unbound, htakes.quoting, htakes.bindings, htakes.supply,
      fun k hn hx => (htakes.others k hn hx).trans (m.stack_setStack_of_ne hx (k := .exec) rest)⟩

/-! ## The flag -/

/-- A name uses the protection up. -/
theorem quoting_step_of_name {out : Outcome Stop ρ} (h : m.step o = some out) (hn : m.ExecutesName) :
    out.machine.quoting = false := by
  obtain ⟨token, name, rest, hnext⟩ := hn
  obtain ⟨m', hs, -, htakes⟩ := step_of_nextNames (o := o) hnext
  rw [h] at hs
  cases hs
  exact htakes.quoting

theorem quoting_step_of_quote {out : Outcome Stop ρ} (h : m.step o = some out) (hq : m.NextRuns o (.name .quote)) :
    out.machine.quoting = true := by
  rw [step_of_nextRuns hq rfl rfl] at h
  cases h
  rfl

/-- **Everything else leaves it alone.** -/
theorem quoting_step_of_other {out : Outcome Stop ρ} (h : m.step o = some out) (hn : ¬ m.ExecutesName)
    (hq : ¬ m.NextRuns o (.name .quote)) : out.machine.quoting = m.quoting := by
  have hpush : ∀ (m : Machine ρ) (k : Kind) (x : k.Item), (m.pushEnabled o k x).quoting = m.quoting := fun m k x => by
    unfold pushEnabled; split <;> rfl
  obtain ⟨t, rest, he, rfl, -⟩ := step_origin h
  cases t with
  | list items => rfl
  | atom token =>
    rw [execute]
    split
    · rfl
    · exact hpush _ _ _
    · exact hpush _ _ _
    · exact hpush _ _ _
    · rename_i name hc
      exact absurd ⟨token, name, rest, he, hc⟩ hn
    · rename_i stack operation hc
      split
      · rfl
      · rename_i i hr
        have hi : i.protects = false := by
          unfold Instruction.protects
          split
          · exact absurd ⟨token, stack, operation, rest, ⟨he, hc⟩, hr⟩ hq
          · rfl
        have hframe := (i.run_frame o (m.popped rest)).quoting hi
        split <;> (rename_i hrun; rw [hrun] at hframe; exact hframe)

/-! ## The course of a run -/

/-- **The machines of a run**: those at which it pops an item, and the one that it leaves, however it ends. -/
def course (o : Options) (n : Nat) (m : Machine ρ) : List (Machine ρ) := pops o n m ++ [(loop o n m).2]

theorem exists_course_eq (o : Options) : ∀ (n : Nat) (m : Machine ρ), ∃ rest, course o n m = m :: rest
  | 0,     _ => ⟨[], rfl⟩
  | n + 1, m => by
    rw [course, pops, loop]
    split
    · rename_i hs
      exact ⟨[], by simp only [hs]; rfl⟩
    · rename_i m₁ hs
      exact ⟨_, rfl⟩
    · rename_i cause m₁ hs
      exact ⟨_, rfl⟩

/-- **Each machine of a run is a step after the one before it.** -/
theorem step_of_course (o : Options) : ∀ (n : Nat) {m p a : Machine ρ} {us vs : List (Machine ρ)},
    course o n m = us ++ p :: a :: vs → ∃ out, p.step o = some out ∧ out.machine = a
  | 0,     m, p, a, us, vs, h => by
    have hlength := congrArg List.length h
    simp [course, pops] at hlength
    omega
  | n + 1, m, p, a, us, vs, h => by
    rw [course, pops, loop] at h
    split at h
    · have hlength := congrArg List.length h
      simp at hlength
      omega
    · rename_i m₁ hs
      simp only [hs, List.cons_append] at h
      cases us with
      | nil =>
        obtain ⟨rfl, htail⟩ := List.cons.inj h
        obtain ⟨rest, hfirst⟩ := exists_course_eq o n m₁
        obtain ⟨rfl, -⟩ := List.cons.inj (hfirst.symm.trans htail)
        exact ⟨_, hs, rfl⟩
      | cons u us => exact step_of_course o n (List.cons.inj h).2
    · rename_i cause m₁ hs
      simp only [hs] at h
      cases us with
      | nil =>
        obtain ⟨rfl, htail⟩ := List.cons.inj h
        refine ⟨_, hs, ?_⟩
        cases cause <;> exact (List.cons.inj htail).1
      | cons u us =>
        have hlength := congrArg List.length h
        simp at hlength
        omega

/-- The flag of each machine of a run is that of the first after what was executed before it. -/
theorem quoting_iff_flagSet (o : Options) (n : Nat) (m : Machine ρ) : ∀ {before : List (Machine ρ)} {a : Machine ρ}
    {after : List (Machine ρ)}, course o n m = before ++ a :: after →
      (a.quoting = true ↔ FlagSet ExecutesName (·.NextRuns o (.name .quote)) (m.quoting = true) before) := by
  intro before
  induction before using List.reverseRecOn with
  | nil =>
    intro a after h
    obtain ⟨rest, hfirst⟩ := exists_course_eq o n m
    rw [List.nil_append, hfirst] at h
    rw [flagSet_nil, (List.cons.inj h).1]
  | append_singleton before p ih =>
    intro a after h
    rw [List.append_assoc, List.singleton_append] at h
    obtain ⟨out, hs, rfl⟩ := step_of_course o n h
    have hp := ih h
    by_cases hname : p.ExecutesName
    · have hflag := quoting_step_of_name hs hname
      simp [hflag, not_flagSet_concat hname]
    · by_cases hquote : p.NextRuns o (.name .quote)
      · have hset : FlagSet ExecutesName (·.NextRuns o (.name .quote)) (m.quoting = true) (before ++ [p]) :=
          flagSet_concat_of_sets hname hquote
        simp [quoting_step_of_quote hs hquote, hset]
      · rw [quoting_step_of_other hs hname hquote, flagSet_concat_of_neither hname hquote]
        exact hp

/-- **The protection is for one name.**  At any machine of a run the flag is set exactly if `name.quote` was executed
after the last name, or no name has been executed yet and the flag was set at the start or `name.quote` was executed.
Each name that is executed at one machine of the run is gone at the next: protected it was pushed onto NAME, in small
letters, even if it is bound; not protected it was replaced by its tree if it is bound then, and pushed if it is not. -/
theorem quoting_of_course (o : Options) (m : Machine ρ) (t : Tree) :
    (∀ before a after, course o (m.budget o) (m.load t) = before ++ a :: after →
      (a.quoting = true ↔
        (∃ us p vs, before = us ++ p :: vs ∧ p.ExecutesName ∧ (∀ q ∈ vs, ¬ q.ExecutesName) ∧
          ∃ q ∈ vs, q.NextRuns o (.name .quote)) ∨
        ((∀ q ∈ before, ¬ q.ExecutesName) ∧ (m.quoting = true ∨ ∃ q ∈ before, q.NextRuns o (.name .quote))))) ∧
    (∀ before p a after, course o (m.budget o) (m.load t) = before ++ p :: a :: after →
      ∀ token name rest, p.NextNames token name rest → name = Text.lower token ∧ TakesName o p name rest a) := by
  constructor
  · intro before a after h
    exact quoting_iff_flagSet o (m.budget o) (m.load t) h
  · intro before p a after h token name rest hnext
    obtain ⟨out, hs, rfl⟩ := step_of_course o (m.budget o) h
    obtain ⟨m', hs', hlower, htakes⟩ := step_of_nextNames (o := o) hnext
    rw [hs] at hs'
    cases hs'
    exact ⟨hlower, htakes⟩

/-- A name that is bound is protected through a literal; when it comes again its tree takes its place. -/
theorem quoting_of_course_literal :
    let m : Machine Twister := { initial (Twister.ofSeed 0) with bindings := ({} : Bindings).bind "x" (.atom "7") }
    let t := Tree.list [.atom "name.quote", .atom "1", .atom "X", .atom "x"]
    let before := [m.load t, { m with exec := [.atom "name.quote", .atom "1", .atom "X", .atom "x"], steps := 1 },
      { m with exec := [.atom "1", .atom "X", .atom "x"], quoting := true, steps := 2 }]
    let p := { m with exec := [.atom "X", .atom "x"], integer := [1], quoting := true, steps := 3 }
    let a := { m with exec := [.atom "x"], integer := [1], name := ["x"], steps := 4 }
    let after := [{ a with exec := [.atom "7"], steps := 5 }, { a with exec := [], integer := [7, 1], steps := 6 }]
    course {} (m.budget {}) (m.load t) = before ++ p :: a :: after ∧ p.quoting = true ∧
      p.NextNames "X" "x" [.atom "x"] ∧ TakesName {} p "x" [.atom "x"] a := by
  intro m t before p a after
  have hcourse : course {} (m.budget {}) (m.load t) = before ++ p :: a :: after := rfl
  have hnext : p.NextNames "X" "x" [.atom "x"] := ⟨rfl, rfl⟩
  have hnone : ∀ q ∈ before, ¬ q.ExecutesName := by
    have hlist : ¬ (m.load t).ExecutesName := by
      rintro ⟨token, name, rest, he, -⟩
      have he : [Tree.list _] = .atom token :: rest := he
      cases he
    have hquote : Token.classify "name.quote" = .ok (.instruction "name" "quote") := rfl
    have hone : Token.classify "1" = .ok (.integer 1) := rfl
    refine List.forall_mem_cons.2 ⟨hlist, List.forall_mem_cons.2 ⟨?_, List.forall_mem_singleton.2 ?_⟩⟩
    · rintro ⟨token, name, rest, he, hc⟩
      cases he
      rw [hquote] at hc
      cases hc
    · rintro ⟨token, name, rest, he, hc⟩
      cases he
      rw [hone] at hc
      cases hc
  have hquoted : ∃ q ∈ before, q.NextRuns {} (.name .quote) :=
    ⟨_, List.mem_cons_of_mem _ List.mem_cons_self, nextRuns_iff.2 ⟨_, _, rfl, rfl⟩⟩
  have hflag := ((quoting_of_course {} m t).1 before p (a :: after) hcourse).2 (.inr ⟨hnone, .inr hquoted⟩)
  exact ⟨hcourse, hflag, hnext, ((quoting_of_course {} m t).2 before p a after hcourse "X" "x" _ hnext).2⟩

end Machine
end PushMachine
