import PushMachine.Proofs.Configuration.Effect
import PushMachine.Proofs.FloatOrder
/-!
# What reading a configuration comes to

One of three things: the first line that is ill-formed is named with what is wrong with it, the rules that the values
break are listed, or the options are accepted.  Which one it is depends on the lines in that order: no rule is looked
at as long as a line is ill-formed.
-/
namespace PushMachine
namespace Configuration

/-! ## The rules -/

/-- What the values of options have to obey, in the order in which they are checked. -/
inductive Rule where
  | randomPoints
  | programPoints
  | stepLimit
  | nameProbability
  | integerRange
  | floatRange

namespace Rule

def all : List Rule := [.randomPoints, .programPoints, .stepLimit, .nameProbability, .integerRange, .floatRange]

/-- **What breaks a rule**: a limit below one, a probability that is none, or a range without an element.  What is no
number is no probability and no end of a range. -/
def Broken (o : Options) : Rule → Prop
  | .randomPoints    => o.randomPoints < 1
  | .programPoints   => o.programPoints < 1
  | .stepLimit       => o.stepLimit < 1
  | .nameProbability =>
    Number.isNan o.nameProbability = true ∨ o.nameProbability < 0.0 ∨ 1.0 < o.nameProbability
  | .integerRange    => o.maxInteger < o.minInteger
  | .floatRange      => Number.isNan o.minFloat = true ∨ Number.isNan o.maxFloat = true ∨ o.maxFloat < o.minFloat

instance (o : Options) : (r : Rule) → Decidable (r.Broken o)
  | .randomPoints    => inferInstanceAs (Decidable (_ < _))
  | .programPoints   => inferInstanceAs (Decidable (_ < _))
  | .stepLimit       => inferInstanceAs (Decidable (_ < _))
  | .nameProbability => inferInstanceAs (Decidable (_ ∨ _))
  | .integerRange    => inferInstanceAs (Decidable (_ < _))
  | .floatRange      => inferInstanceAs (Decidable (_ ∨ _))

/-- What is said of a rule that is broken. -/
def text (o : Options) : Rule → String
  | .randomPoints    => "MAX-POINTS-IN-RANDOM-EXPRESSIONS must be at least 1, got " ++ o.randomPoints.repr
  | .programPoints   => "MAX-POINTS-IN-PROGRAM must be at least 1, got " ++ o.programPoints.repr
  | .stepLimit       => "EVALPUSH-LIMIT must be at least 1, got " ++ o.stepLimit.repr
  | .nameProbability =>
    "NEW-ERC-NAME-PROBABILITY must be between 0 and 1 inclusive, got " ++ settingFloatText o.nameProbability
  | .integerRange    =>
    "MIN-RANDOM-INTEGER (" ++ o.minInteger.repr ++ ") must be less than or equal to MAX-RANDOM-INTEGER ("
      ++ o.maxInteger.repr ++ ")"
  | .floatRange      =>
    "MIN-RANDOM-FLOAT (" ++ settingFloatText o.minFloat ++ ") must be less than or equal to MAX-RANDOM-FLOAT ("
      ++ settingFloatText o.maxFloat ++ ")"

/-- The rules that options break. -/
def broken (o : Options) : List Rule := all.filter fun r => r.Broken o

/-- A broken rule as a problem. -/
def problem (o : Options) : Rule → Problem
  | .randomPoints    => .tooSmall .randomPoints o.randomPoints
  | .programPoints   => .tooSmall .programPoints o.programPoints
  | .stepLimit       => .tooSmall .stepLimit o.stepLimit
  | .nameProbability => .notProbability o.nameProbability
  | .integerRange    => .integerOrder o.minInteger o.maxInteger
  | .floatRange      => .floatOrder o.minFloat o.maxFloat

theorem mem_all (r : Rule) : r ∈ all := by
  cases r <;> simp [all]

theorem broken_eq_nil_iff {o : Options} : broken o = [] ↔ ∀ r : Rule, ¬ r.Broken o := by
  rw [broken, List.filter_eq_nil_iff]
  simp only [decide_eq_true_eq]
  exact ⟨fun h r => h r (mem_all r), fun h r _ => h r⟩

theorem append_order (a b between low high : String) :
    a ++ " (" ++ low ++ between ++ b ++ " (" ++ high ++ ")" =
      (a ++ " (") ++ low ++ (between ++ (b ++ " (")) ++ high ++ ")" := by
  simp only [String.append_assoc]

theorem message_problem (o : Options) (r : Rule) : (r.problem o).message = r.text o := by
  cases r with
  | integerRange =>
    have hlow : keyLabel IntegerField.minInteger.key ++ " (" = "MIN-RANDOM-INTEGER (" := by decide
    have hhigh : ") must be less than or equal to " ++ (keyLabel IntegerField.maxInteger.key ++ " (") =
      ") must be less than or equal to MAX-RANDOM-INTEGER (" := by decide
    rw [problem, Problem.message, append_order, hlow, hhigh]
    rfl
  | floatRange =>
    have hlow : keyLabel FloatField.minFloat.key ++ " (" = "MIN-RANDOM-FLOAT (" := by decide
    have hhigh : ") must be less than or equal to " ++ (keyLabel FloatField.maxFloat.key ++ " (") =
      ") must be less than or equal to MAX-RANDOM-FLOAT (" := by decide
    rw [problem, Problem.message, append_order, hlow, hhigh]
    rfl
  | _ => rfl

theorem nameProbability_broken_iff {o : Options} :
    nameProbability.Broken o ↔ ¬ (0.0 ≤ o.nameProbability ∧ o.nameProbability ≤ 1.0) := by
  have hzero : Number.isNan 0.0 = false := by decide
  have hone : Number.isNan 1.0 = false := by decide
  rw [Decidable.not_and_iff_or_not, Number.not_le_iff, Number.not_le_iff, hzero, hone, Broken]
  simp only [Bool.false_eq_true, false_or]
  tauto

theorem floatRange_broken_iff {o : Options} : floatRange.Broken o ↔ ¬ o.minFloat ≤ o.maxFloat :=
  Number.not_le_iff.symm

/-- **The problems of options are the rules that they break.** -/
theorem problems_eq (o : Options) : o.problems = (broken o).map (problem o) := by
  have hone (r : Rule) : ([r].filter fun r => decide (r.Broken o)).map (problem o) =
      if r.Broken o then [r.problem o] else [] := by
    rw [List.filter_singleton, Bool.cond_decide]
    split <;> rfl
  have hall :
      all = [randomPoints, programPoints, stepLimit] ++ [nameProbability] ++ [integerRange] ++ [floatRange] := rfl
  rw [Options.problems, broken, hall]
  simp only [List.filter_append, List.map_append, hone]
  refine congrArg₂ (· ++ ·) (congrArg₂ (· ++ ·) (congrArg₂ (· ++ ·) ?_ ?_) ?_) ?_
  · rw [← List.filterMap_eq_map, List.filterMap_filter]
    simp only [decide_eq_true_eq]
    rfl
  · simp only [nameProbability_broken_iff, Bool.and_eq_true, decide_eq_true_eq, ite_not]
    rfl
  · rfl
  · simp only [floatRange_broken_iff, ite_not]
    rfl

end Rule

theorem problems_eq_nil_iff {o : Options} : o.problems = [] ↔ ∀ r : Rule, ¬ r.Broken o := by
  rw [Rule.problems_eq, List.map_eq_nil_iff, Rule.broken_eq_nil_iff]

theorem joined_problems (o : Options) :
    Problem.joined o.problems = String.intercalate "; " ((Rule.broken o).map (Rule.text o)) := by
  rw [Problem.joined, Rule.problems_eq, List.map_map]
  exact congrArg _ (List.map_congr_left fun r _ => Rule.message_problem o r)

/-! ## The verdict -/

/-- **What lines come to**: the options, or the line that is named, if one is, and what is said. -/
inductive Verdict (lines : List (List Char)) : Except (Option Nat × String) Options → Prop
  /-- The first line that is ill-formed is named, whatever comes after it. -/
  | illFormed {before after : List (List Char)} {line : List Char} {cause : LineError}
      (hlines : lines = before ++ line :: after) (hbefore : ∀ l ∈ before, WellFormed l)
      (hline : IllFormed line cause) : Verdict lines (.error (some (before.length + 1), cause.message))
  /-- All lines are well-formed, and every rule that is broken is told. -/
  | broken {o : Options} (hlines : ∀ line ∈ lines, WellFormed line) (ho : Gives lines o)
      (hbroken : ∃ r : Rule, r.Broken o) :
      Verdict lines (.error (none, String.intercalate "; " ((Rule.broken o).map (Rule.text o))))
  /-- All lines are well-formed and no rule is broken. -/
  | accepted {o : Options} (hlines : ∀ line ∈ lines, WellFormed line) (ho : Gives lines o)
      (hkept : ∀ r : Rule, ¬ r.Broken o) (hvalid : o.problems = []) : Verdict lines (.ok o)

/-- An error as it is seen: the line it names, if any, and its wording. -/
def seen (e : Error) : Option Nat × String := (e.line?, e.message)

theorem exists_verdict (lines : List (List Char)) : ∃ r, Verdict lines r := by
  rcases wellFormed_or_first lines with h | ⟨before, line, after, cause, hlines, hbefore, hline⟩
  · by_cases hkept : ∀ r : Rule, ¬ r.Broken ((entries lines).foldl Options.add {})
    · exact ⟨_, .accepted h (gives_foldl h) hkept (problems_eq_nil_iff.2 hkept)⟩
    · exact ⟨_, .broken h (gives_foldl h) (not_forall_not.1 hkept)⟩
  · exact ⟨_, .illFormed hlines hbefore hline⟩

theorem Verdict.eq {lines : List (List Char)} {r : Except (Option Nat × String) Options} (h : Verdict lines r) :
    (Options.ofLines lines).mapError seen = r := by
  cases h with
  | illFormed hlines hbefore hline =>
    rw [hlines, Options.ofLines, readLines_of_illFormed hbefore hline, Nat.add_comm]
    rfl
  | broken hlines ho hbroken =>
    have hproblems := mt problems_eq_nil_iff.1 (not_forall_not.2 hbroken)
    rw [Options.ofLines_of_gives hlines ho, if_neg hproblems, ← joined_problems]
    rfl
  | accepted hlines ho _ hvalid =>
    rw [Options.ofLines_of_gives hlines ho, if_pos hvalid]
    rfl

/-- **Reading lines comes to exactly one verdict**: the first ill-formed line with an error that depends on this line
alone; if there is none, what is wrong with the values together; and if nothing is, valid options. -/
theorem verdict_iff (lines : List (List Char)) (r : Except (Option Nat × String) Options) :
    (Options.ofLines lines).mapError seen = r ↔ Verdict lines r := by
  refine ⟨fun h => ?_, Verdict.eq⟩
  obtain ⟨r', hr⟩ := exists_verdict lines
  rwa [← h, hr.eq]

end Configuration
end PushMachine
