import PushMachine.Proofs.Failure
import PushMachine.Proofs.Interpreter.Session
import PushMachine.Random.Twister
/-!
# How a run fails

A run of a balanced text ends as one of its items makes it end, or fails.  What fails is one of its steps: its item fails
(`Machine.Fails`), or an integer that is left on INTEGER is too long for the trace.  Nothing else halts a run
(`run_fails_iff`).
-/
namespace PushMachine
namespace Interpreter

variable {ρ : Type} [RandomSource ρ]

/-- **How a step of an interpreter fails.** -/
inductive Fails (o : Options) (it : Interpreter ρ) : Fault → Prop
  | item {f : Fault} : it.machine.Fails o f → Fails o it f
  | trace {m : Machine ρ} {n : Int} : o.tracing = true → it.machine.step o = some (.next m) → n ∈ m.integer →
      Number.isWritable n = false → Fails o it .integerTooLong

variable {o : Options} {it : Interpreter ρ} {f : Fault}

/-! ## Steps -/

omit [RandomSource ρ] in
theorem trace_fails_iff {m : Machine ρ} : (o.tracing && !m.integer.all Number.isWritable) = true ↔
    o.tracing = true ∧ ∃ n ∈ m.integer, Number.isWritable n = false := by
  simp only [Bool.and_eq_true, Bool.not_eq_true', List.all_eq_false, Bool.not_eq_true]

omit [RandomSource ρ] in
/-- What the trace makes of an outcome is a fault if it was one, or if there is an integer that is too long for it. -/
theorem traced_eq_fault_iff {out : Outcome Stop ρ} :
    (out.traced o).1 = .error (.fault f) ↔ (∃ m, out = .stop (.fault f) m) ∨
      ∃ m, out = .next m ∧ o.tracing = true ∧ f = .integerTooLong ∧ ∃ n ∈ m.integer, Number.isWritable n = false := by
  cases out with
  | stop cause m => cases cause <;> simp [Outcome.traced, Stop.halt]
  | next m =>
    rw [Outcome.traced]
    split
    · rename_i hlong
      obtain ⟨htracing, hlong⟩ := trace_fails_iff.1 hlong
      constructor
      · intro hf
        cases hf
        exact .inr ⟨m, rfl, htracing, rfl, hlong⟩
      · rintro (⟨_, hs⟩ | ⟨_, -, -, rfl, -⟩)
        · cases hs
        · rfl
    · rename_i hshort
      refine iff_of_false (fun hf => by cases hf) ?_
      rintro (⟨_, hs⟩ | ⟨_, hs, htracing, -, hlong⟩)
      · cases hs
      · cases hs
        exact hshort (trace_fails_iff.2 ⟨htracing, hlong⟩)

/-- **A step fails in these ways only**, where everything is spelled right. -/
theorem Keeps.step_eq_fault_iff (h : it.Keeps o Machine.Spelled) :
    (∃ it', it.step o = some (.error (.fault f), it')) ↔ it.Fails o f := by
  have hstep : it.step o = (it.machine.step o).map (Outcome.traced o) := by
    conv_lhs => rw [← h.fits.interpreter_machine]
    exact Machine.step_interpreter h.fits.vacant
  have hfst : (∃ it', it.step o = some (.error (.fault f), it')) ↔
      ∃ out, it.machine.step o = some out ∧ (out.traced o).1 = .error (.fault f) := by
    rw [hstep]
    constructor
    · rintro ⟨it', hs⟩
      obtain ⟨out, hout, htraced⟩ := Option.map_eq_some_iff.1 hs
      exact ⟨out, hout, by rw [htraced]⟩
    · rintro ⟨out, hout, htraced⟩
      exact ⟨(out.traced o).2, by rw [hout, Option.map_some, ← htraced]⟩
  rw [hfst]
  constructor
  · rintro ⟨out, hout, htraced⟩
    obtain ⟨m, rfl⟩ | ⟨m, rfl, htrace, rfl, n, hn, hw⟩ := traced_eq_fault_iff.1 htraced
    · exact .item ((Machine.step_eq_fault_iff h.state).1 ⟨m, hout⟩)
    · exact .trace htrace hout hn hw
  · intro hf
    cases hf with
    | item hf =>
      obtain ⟨m, hout⟩ := (Machine.step_eq_fault_iff h.state).2 hf
      exact ⟨_, hout, traced_eq_fault_iff.2 (.inl ⟨m, rfl⟩)⟩
    | trace htrace hout hn hw => exact ⟨_, hout, traced_eq_fault_iff.2 (.inr ⟨_, rfl, htrace, rfl, _, hn, hw⟩)⟩

/-! ## Runs -/

theorem Keeps.run_spelled (h : it.Keeps o Machine.Spelled) (text : String) :
    (∀ p ∈ it.runPops o text, p.Keeps o Machine.Spelled) ∧ (it.run o text).2.Keeps o Machine.Spelled :=
  run_keeps (fun _ _ hp hs => hp.step hs) (fun _ hp => hp.finish)
    (fun _ ht hp => hp.start (Tree.wellFormed_of_parse ht)) h

/-- **Everything in a session is spelled right.** -/
theorem runAll_spelled : ∀ (texts : List String) {it : Interpreter ρ}, it.Keeps o Machine.Spelled →
    (it.runAll o texts).Keeps o Machine.Spelled
  | [],            _, h => h
  | text :: texts, _, h => runAll_spelled texts (h.run_spelled text).2

theorem run_eq_parseError_iff (o : Options) (it : Interpreter ρ) (text : String) :
    (∃ e, (it.run o text).1 = .error e) ↔ ¬ Tree.Balanced text := by
  rw [← Tree.parse_ok_iff_balanced, run]
  cases Tree.parse text with
  | error e => simp
  | ok t => simp

theorem Keeps.run_eq_halt_iff (h : it.Keeps o Machine.Spelled) {text : String} {halt : Halt} :
    (it.run o text).1 = .ok (.error halt) ↔ ∃ f, halt = .fault f ∧ ∃ p ∈ it.runPops o text, p.Fails o f := by
  have hpops := (h.run_spelled text).1
  have hstep : (it.run o text).1 = .ok (.error halt) ↔
      (∀ a, halt ≠ .abort a) ∧ ∃ p ∈ it.runPops o text, ∃ it', p.step o = some (.error halt, it') := by
    rw [run, runPops]
    cases Tree.parse text with
    | error e => simp
    | ok t =>
      dsimp only
      rw [Except.ok.injEq, h.fits.runTree_eq_error_iff, loop_eq_error_iff, ← treePops_interpreter,
        h.fits.interpreter_machine]
  rw [hstep]
  constructor
  · rintro ⟨hne, p, hp, it', hs⟩
    obtain ⟨_ | f, rfl⟩ := (hpops p hp).fits.step_eq_error hs
    · exact absurd rfl (hne _)
    · exact ⟨f, rfl, p, hp, (hpops p hp).step_eq_fault_iff.1 ⟨it', hs⟩⟩
  · rintro ⟨f, rfl, p, hp, hf⟩
    exact ⟨fun a ha => (by cases ha), p, hp, (hpops p hp).step_eq_fault_iff.2 hf⟩

/-- **How a run of a session ends.**  It reports unbalanced parentheses exactly where they are; otherwise it fails exactly
if one of its steps does, as that step does, and returns how it ended if none does.

Trees may be nested as deeply as memory allows here, and time does not matter.  A host that bounds the depth of a
recursion also gives up where it compares trees, in `exec.=`, `code.=` and `code.member`, and where it generates them, in
`code.rand`, if they are nested deeper than that.  The search for a new name ends after `Draw.redrawLimit` draws here; a host
that goes on drawing does not fail there. -/
theorem run_fails_iff (o : Options) (source : ρ) (texts : List String) (text : String) :
    ((∃ e, (((build o source).runAll o texts).run o text).1 = .error e) ↔ ¬ Tree.Balanced text) ∧
    (∀ halt, (((build o source).runAll o texts).run o text).1 = .ok (.error halt) ↔
      ∃ f, halt = .fault f ∧ ∃ p ∈ ((build o source).runAll o texts).runPops o text, p.Fails o f) ∧
    ((∃ e, (((build o source).runAll o texts).run o text).1 = .ok (.ok e)) ↔
      Tree.Balanced text ∧ ∀ p ∈ ((build o source).runAll o texts).runPops o text, ∀ f, ¬ p.Fails o f) := by
  have hspelled := runAll_spelled (o := o) texts (keeps_build o source (Machine.spelled_initial source))
  generalize (build o source).runAll o texts = it at hspelled ⊢
  have hparse := run_eq_parseError_iff o it text
  have hhalt : ∀ halt, (it.run o text).1 = .ok (.error halt) ↔ ∃ f, halt = .fault f ∧ ∃ p ∈ it.runPops o text, p.Fails o f :=
    fun _ => hspelled.run_eq_halt_iff
  refine ⟨hparse, hhalt, ?_⟩
  constructor
  · rintro ⟨e, he⟩
    refine ⟨?_, fun p hp f hf => ?_⟩
    · by_contra hb
      obtain ⟨e', he'⟩ := hparse.2 hb
      rw [he] at he'
      cases he'
    · have := (hhalt (.fault f)).2 ⟨f, rfl, p, hp, hf⟩
      rw [he] at this
      cases this
  · rintro ⟨hb, hnone⟩
    cases hr : (it.run o text).1 with
    | error e => exact absurd hb (hparse.1 ⟨e, hr⟩)
    | ok r =>
      cases r with
      | ok e => exact ⟨e, rfl⟩
      | error halt =>
        obtain ⟨f, -, p, hp, hf⟩ := (hhalt halt).1 hr
        exact absurd hf (hnone p hp f)

/-- **A run that fails**: the word passes for an infinity where case is ignored, and is none. -/
theorem run_dotless_fails :
    ({} : Options).Valid ∧ Tree.Balanced "ınf" ∧
    (((build {} (Twister.ofSeed 0)).runAll {} []).run {} "ınf").1 = .ok (.error (.fault (.unreadableFloat "ınf"))) := by
  refine ⟨rfl, (Tree.parse_ok_iff_balanced _).1 ⟨_, rfl⟩, by decide +kernel⟩

end Interpreter
end PushMachine
