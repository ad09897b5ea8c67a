import PushMachine.Proofs.Course
import PushMachine.Proofs.Origin
import PushMachine.Random.Twister
/-!
# The size limit and the CODE stack

A program may be larger than the limit, so large trees can stand on EXEC and be bound to names.  Every instruction that
puts a tree on CODE tests it, takes a part of a tree that is there, or makes it small enough, except one:
`code.definition` puts on CODE whatever a name is bound to.  So a step keeps CODE within the limit exactly if it does not
recall a tree beyond the limit (`step_codeWithin_iff`), and a session does as long as none of its steps does
(`codeWithin_of_not_recallsOversized`).
-/
namespace PushMachine
namespace Machine

variable {ρ : Type}

/-- Every tree on CODE respects the size limit. -/
def CodeWithin (o : Options) (m : Machine ρ) : Prop := ∀ t ∈ m.code, (t.points : Int) ≤ o.programPoints

variable [RandomSource ρ] {o : Options} {m : Machine ρ}

/-- The next item is `code.definition`, and the top name is bound to a tree beyond the size limit. -/
def RecallsOversized (o : Options) (m : Machine ρ) : Prop :=
  m.NextRuns o (.code .definition) ∧
    ∃ name ∈ m.name.head?, ∃ t, m.bindings.lookup name = some t ∧ o.programPoints < t.points

/-! ## One step -/

/-- What an instruction puts on CODE is within the limit, unless it recalls it. -/
theorem points_le_of_makes (hv : o.Valid) (hm : m.CodeWithin o) {i : Instruction} {t : Tree}
    (h : i.Makes o m .code t) :
    (t.points : Int) ≤ o.programPoints ∨
      (i = .code .definition ∧ ∃ name ∈ m.name.head?, m.bindings.lookup name = some t) := by
  have hone : 1 ≤ o.programPoints := hv.one_le (f := .programPoints) (by decide)
  cases h with
  | built hf _ => exact .inl (by simpa [Options.fits] using hf)
  | part hu hp _ =>
    have := hm _ hu
    exact .inl (by omega)
  | recalled hn hl => exact .inr ⟨rfl, _, hn, hl⟩
  | quoted _ hf => exact .inl (by simpa [Options.fits] using hf)
  | @converted op k x t he hc _ ht =>
    -- the code of a literal or of a name is one token
    have hw : k.weight x = 1 := by
      cases k with
      | integer | float | boolean | name => rfl
      | exec => exact absurd rfl he
      | code => exact absurd rfl hc
    have := Tree.points_ofItem ht
    exact .inl (by omega)
  | @generated n t ht hn =>
    have hy := RandomCode.upTo_yields o (CodeOp.randomLimit o n) m.supply t
      (RandomCode.upTo o (CodeOp.randomLimit o n) m.supply).2 (Prod.ext ht rfl)
    have hl : CodeOp.randomLimit o n ≤ o.programPoints := by unfold CodeOp.randomLimit; omega
    exact .inl (by omega)

theorem codeWithin_step (hv : o.Valid) (hm : m.CodeWithin o) (hn : ¬ m.RecallsOversized o) {out : Outcome Stop ρ}
    (h : m.step o = some out) : out.machine.CodeWithin o := by
  obtain ⟨item, rest, he, -, horigin⟩ := step_origin h
  intro t ht
  rcases horigin .code t ht with ht | hg
  · exact hm t ht
  · cases hg with
    | @made token stack operation i _ _ hc hr hmk =>
      have hp : (m.popped rest).CodeWithin o := hm
      rcases points_le_of_makes hv hp hmk with hle | ⟨rfl, name, hname, hl⟩
      · exact hle
      · have hruns : m.NextRuns o (.code .definition) := ⟨token, stack, operation, rest, ⟨he, hc⟩, hr⟩
        by_cases hle : (t.points : Int) ≤ o.programPoints
        · exact hle
        · exact absurd ⟨hruns, name, hname, t, hl, by omega⟩ hn

/-- A tree that is recalled is on CODE after the step. -/
theorem not_codeWithin_step (hr : m.RecallsOversized o) {out : Outcome Stop ρ} (h : m.step o = some out) :
    ¬ out.machine.CodeWithin o := by
  obtain ⟨⟨token, stack, operation, rest, ⟨he, hc⟩, hres⟩, name, hname, t, hl, hlt⟩ := hr
  obtain ⟨names, hnames⟩ := List.head?_eq_some_iff.1 (Option.mem_def.1 hname)
  have hout : out = .next { m.popped rest with name := names, code := t :: m.code } := by
    rw [step_of_exec he, Option.some.injEq] at h
    rw [← h]
    simp only [execute, hc, hres, Instruction.run, CodeOp.run, CodeOp.pushDefinition, hnames, hl, popped]
  rw [hout]
  intro hw
  have := hw t List.mem_cons_self
  omega

theorem step_codeWithin_iff (hv : o.Valid) (hm : m.CodeWithin o) {out : Outcome Stop ρ} (h : m.step o = some out) :
    out.machine.CodeWithin o ↔ ¬ m.RecallsOversized o :=
  ⟨fun hw hr => not_codeWithin_step hr h hw, fun hn => codeWithin_step hv hm hn h⟩

/-! ## Sessions -/

omit [RandomSource ρ] in
theorem codeWithin_start (hp : o.pushProgram = false) (hm : m.CodeWithin o) (t : Tree) :
    ((m.start o t).load t).CodeWithin o := by
  have hs : (m.start o t).code = m.code := by simp [start, hp, reset]
  intro u hu
  rw [show ((m.start o t).load t).code = m.code from hs] at hu
  exact hm u hu

omit [RandomSource ρ] in
theorem codeWithin_finish (m : Machine ρ) (hm : m.CodeWithin o) : (m.finish o).CodeWithin o := by
  unfold finish
  split
  · exact fun t ht => hm t (List.mem_of_mem_tail ht)
  · exact hm

theorem codeWithin_of_not_recallsOversized (hv : o.Valid) (hp : o.pushProgram = false) (hm : m.CodeWithin o)
    (texts : List String) (hn : ∀ p ∈ sessionPops o m texts, ¬ p.RecallsOversized o) :
    (∀ p ∈ sessionPops o m texts, p.CodeWithin o) ∧ (m.runAll o texts).CodeWithin o :=
  session_invariant (P := CodeWithin o) (Q := fun p => ¬ p.RecallsOversized o)
    (fun _ _ hw hr hs => codeWithin_step hv hw hr hs) codeWithin_finish
    (fun _ _ t _ hw => codeWithin_start hp hw t) texts m hm hn

omit [RandomSource ρ] in
theorem allows_of_recallsOversized (h : m.RecallsOversized o) : o.allows (.code .definition) = true := by
  obtain ⟨⟨_, _, _, _, _, hr⟩, -⟩ := h
  exact (Options.resolve_eq_ok hr).2.2.2

/-- **When the size limit protects CODE.**  A step from a machine whose CODE is within the limit keeps it so exactly if it
does not recall a tree beyond the limit.  A session that starts with nothing keeps CODE within the limit as long as none of
its steps recalls such a tree; where `code.definition` is not allowed, every session does. -/
theorem codeWithin_unless_recalled (o : Options) (hv : o.Valid) (hp : o.pushProgram = false) :
    (∀ (m : Machine ρ) (out : Outcome Stop ρ), m.CodeWithin o → m.step o = some out →
      (out.machine.CodeWithin o ↔ ¬ m.RecallsOversized o)) ∧
    (∀ (source : ρ) (texts : List String),
      (∀ p ∈ sessionPops o (initial source) texts, ¬ p.RecallsOversized o) →
        (∀ p ∈ sessionPops o (initial source) texts, p.CodeWithin o) ∧
          ((initial source).runAll o texts).CodeWithin o) ∧
    (o.allows (.code .definition) = false →
      ∀ (source : ρ) (texts : List String), ((initial source).runAll o texts).CodeWithin o) := by
  have hinit : ∀ source : ρ, (initial source).CodeWithin o := fun _ => List.forall_mem_nil _
  refine ⟨fun m out hm h => step_codeWithin_iff hv hm h,
    fun source texts hn => codeWithin_of_not_recallsOversized hv hp (hinit source) texts hn,
    fun ha source texts => ?_⟩
  refine (codeWithin_of_not_recallsOversized hv hp (hinit source) texts fun p _ hr => ?_).2
  rw [allows_of_recallsOversized hr] at ha
  cases ha

/-- Without `code.definition` a tree of three points is quoted, and CODE is within a limit of three. -/
theorem codeWithin_unless_recalled_quoted :
    ({ pushProgram := false, programPoints := 3, instructions := ["code.quote"] } : Options).Valid ∧
    ((initial (Twister.ofSeed 0)).runAll { pushProgram := false, programPoints := 3, instructions := ["code.quote"] }
      ["code.quote (1 2)"]).code = [.list [.atom "1", .atom "2"]] ∧
    CodeWithin { pushProgram := false, programPoints := 3, instructions := ["code.quote"] }
      ((initial (Twister.ofSeed 0)).runAll { pushProgram := false, programPoints := 3, instructions := ["code.quote"] }
        ["code.quote (1 2)"]) :=
  ⟨rfl, by decide +kernel, (codeWithin_unless_recalled
    { pushProgram := false, programPoints := 3, instructions := ["code.quote"] } rfl rfl).2.2 (by decide)
      (Twister.ofSeed 0) ["code.quote (1 2)"]⟩

/-- **A limit that is not kept**: a tree of four points is bound straight from EXEC and recalled onto CODE, where the
limit is three. -/
theorem not_codeWithin_recalled :
    ({ pushProgram := false, programPoints := 3 } : Options).Valid ∧
    ((initial (Twister.ofSeed 0)).runAll { pushProgram := false, programPoints := 3 }
      ["a exec.define (1 2 3) name.quote a code.definition"]).code = [.list [.atom "1", .atom "2", .atom "3"]] ∧
    ¬ CodeWithin { pushProgram := false, programPoints := 3 }
      ((initial (Twister.ofSeed 0)).runAll { pushProgram := false, programPoints := 3 }
        ["a exec.define (1 2 3) name.quote a code.definition"]) := by
  have hcode : ((initial (Twister.ofSeed 0)).runAll { pushProgram := false, programPoints := 3 }
      ["a exec.define (1 2 3) name.quote a code.definition"]).code = [.list [.atom "1", .atom "2", .atom "3"]] := rfl
  refine ⟨rfl, hcode, fun h => ?_⟩
  have hle := h _ (by rw [hcode]; exact List.mem_singleton.2 rfl)
  simp only [Tree.points_list, Tree.pointsAll_cons, Tree.points_atom, Tree.pointsAll_nil] at hle
  exact absurd hle (by decide)

end Machine
end PushMachine
