import PushMachine.Kind
import PushMachine.Number.FloatText
import PushMachine.Text.Lowercase
/-!
# Options of a machine

Fourteen settings: three flags, six integers, three floats and two sets of names.  The numbers are checked together,
and `problems` lists every rule that a combination breaks.  An empty set of types or instructions allows all of them;
the EXEC stack is always there.
-/
namespace PushMachine

/-! ## Sets of names

A set of names is its elements in increasing order, so two sets with the same elements are equal. -/

abbrev NameSet := List String

namespace NameSet

def insert (x : String) : NameSet → NameSet
  | []      => [x]
  | y :: ys => if x < y then x :: y :: ys else if x = y then y :: ys else y :: insert x ys

def ofList (xs : List String) : NameSet := xs.foldr insert []

theorem mem_insert {x y : String} : ∀ s : NameSet, y ∈ insert x s ↔ y = x ∨ y ∈ s
  | []     => by simp [insert]
  | z :: s => by
    unfold insert
    split
    · simp
    · split
      · rename_i h; subst h; simp
      · simp only [List.mem_cons, mem_insert s, or_left_comm]

theorem mem_ofList {y : String} : ∀ xs : List String, y ∈ ofList xs ↔ y ∈ xs
  | []      => by simp [ofList]
  | x :: xs => by
    have ih := mem_ofList (y := y) xs
    simp only [ofList] at ih
    simp only [ofList, List.foldr_cons, mem_insert, List.mem_cons, ih]

end NameSet

/-! ## Fields -/

inductive FlagField where
  | pushProgram
  | popProgram
  | tracing
  deriving DecidableEq, Repr

inductive IntegerField where
  | stepLimit
  | programPoints
  | randomPoints
  | maxInteger
  | minInteger
  | seed
  deriving DecidableEq, Repr

inductive FloatField where
  | nameProbability
  | maxFloat
  | minFloat
  deriving DecidableEq, Repr

/-- The key of a flag in a configuration. -/
def FlagField.key : FlagField → String
  | .pushProgram => "top-level-push-code"
  | .popProgram  => "top-level-pop-code"
  | .tracing     => "tracing"

/-- The name of a flag in a document. -/
def FlagField.label : FlagField → String
  | .pushProgram => "top_level_push_code"
  | .popProgram  => "top_level_pop_code"
  | .tracing     => "tracing"

def FlagField.all : List FlagField := [.pushProgram, .popProgram, .tracing]

/-- The key of an integer in a configuration. -/
def IntegerField.key : IntegerField → String
  | .stepLimit     => "evalpush-limit"
  | .programPoints => "max-points-in-program"
  | .randomPoints  => "max-points-in-random-expressions"
  | .maxInteger    => "max-random-integer"
  | .minInteger    => "min-random-integer"
  | .seed          => "random-seed"

/-- The name of an integer in a document. -/
def IntegerField.label : IntegerField → String
  | .stepLimit     => "eval_push_limit"
  | .programPoints => "max_points_in_program"
  | .randomPoints  => "max_points_in_random_expression"
  | .maxInteger    => "max_random_integer"
  | .minInteger    => "min_random_integer"
  | .seed          => "random_seed"

def IntegerField.all : List IntegerField :=
  [.stepLimit, .programPoints, .randomPoints, .maxInteger, .minInteger, .seed]

/-- The key of a float in a configuration. -/
def FloatField.key : FloatField → String
  | .nameProbability => "new-erc-name-probability"
  | .maxFloat        => "max-random-float"
  | .minFloat        => "min-random-float"

/-- The name of a float in a document. -/
def FloatField.label : FloatField → String
  | .nameProbability => "new_erc_name_probability"
  | .maxFloat        => "max_random_float"
  | .minFloat        => "min_random_float"

def FloatField.all : List FloatField := [.nameProbability, .maxFloat, .minFloat]

/-! ## Options -/

structure Options where
  /-- Push a program onto CODE before it runs. -/
  pushProgram     : Bool := true
  /-- Pop CODE after a program has run. -/
  popProgram      : Bool := false
  /-- Steps allowed in one run. -/
  stepLimit       : Int := 1000
  /-- Chance that a random name is a new one. -/
  nameProbability : Float := 0.001
  /-- Points allowed in a tree that an instruction builds. -/
  programPoints   : Int := 100
  /-- Points allowed in a random tree. -/
  randomPoints    : Int := 25
  maxFloat        : Float := 1.0
  minFloat        : Float := -1.0
  maxInteger      : Int := 10
  minInteger      : Int := -10
  tracing         : Bool := false
  seed            : Int := 0
  /-- The types allowed, lower-cased. -/
  types           : NameSet := []
  /-- The instructions allowed, lower-cased. -/
  instructions    : NameSet := []

/-- A value for one field. -/
inductive Setting where
  | flag (field : FlagField) (value : Bool)
  | integer (field : IntegerField) (value : Int)
  | float (field : FloatField) (value : Float)

namespace Options

def flag (o : Options) : FlagField → Bool
  | .pushProgram => o.pushProgram
  | .popProgram  => o.popProgram
  | .tracing     => o.tracing

def integer (o : Options) : IntegerField → Int
  | .stepLimit     => o.stepLimit
  | .programPoints => o.programPoints
  | .randomPoints  => o.randomPoints
  | .maxInteger    => o.maxInteger
  | .minInteger    => o.minInteger
  | .seed          => o.seed

def float (o : Options) : FloatField → Float
  | .nameProbability => o.nameProbability
  | .maxFloat        => o.maxFloat
  | .minFloat        => o.minFloat

def set (o : Options) : Setting → Options
  | .flag .pushProgram b      => { o with pushProgram := b }
  | .flag .popProgram b       => { o with popProgram := b }
  | .flag .tracing b          => { o with tracing := b }
  | .integer .stepLimit n     => { o with stepLimit := n }
  | .integer .programPoints n => { o with programPoints := n }
  | .integer .randomPoints n  => { o with randomPoints := n }
  | .integer .maxInteger n    => { o with maxInteger := n }
  | .integer .minInteger n    => { o with minInteger := n }
  | .integer .seed n          => { o with seed := n }
  | .float .nameProbability x => { o with nameProbability := x }
  | .float .maxFloat x        => { o with maxFloat := x }
  | .float .minFloat x        => { o with minFloat := x }

/-- Allow these types and no others, or all if there are none. -/
def withTypes (o : Options) (types : List String) : Options :=
  { o with types := NameSet.ofList (types.map Text.lower) }

/-- Allow these instructions and no others, or all if there are none. -/
def withInstructions (o : Options) (instructions : List String) : Options :=
  { o with instructions := NameSet.ofList (instructions.map Text.lower) }

def typeEnabled (o : Options) (stack : String) : Bool :=
  stack == Kind.exec.label || o.types.isEmpty || o.types.contains stack

/-- **Whether a machine with these options has the stack of a kind.** -/
def enables (o : Options) (k : Kind) : Bool := o.typeEnabled k.label

def instructionEnabled (o : Options) (stack operation : String) : Bool :=
  o.instructions.isEmpty || o.instructions.contains (stack ++ "." ++ operation)

end Options

/-! ## Validity -/

/-- A rule that options break, with the values that break it. -/
inductive Problem where
  | tooSmall (field : IntegerField) (value : Int)
  | notProbability (value : Float)
  | integerOrder (low high : Int)
  | floatOrder (low high : Float)

/-- A key as a message names it. -/
def keyLabel (key : String) : String := String.ofList (key.toList.map Char.toUpper)

/-- A float as a message shows it: an integer where it is one. -/
def settingFloatText (x : Float) : String :=
  if Number.isWhole x then (Number.truncate x).repr else Number.floatText x

/-- The wording of a problem. -/
def Problem.message : Problem → String
  | .tooSmall field value   => keyLabel field.key ++ " must be at least 1, got " ++ value.repr
  | .notProbability value   =>
    keyLabel FloatField.nameProbability.key ++ " must be between 0 and 1 inclusive, got " ++ settingFloatText value
  | .integerOrder low high  =>
    keyLabel IntegerField.minInteger.key ++ " (" ++ low.repr ++ ") must be less than or equal to "
      ++ keyLabel IntegerField.maxInteger.key ++ " (" ++ high.repr ++ ")"
  | .floatOrder low high    =>
    keyLabel FloatField.minFloat.key ++ " (" ++ settingFloatText low ++ ") must be less than or equal to "
      ++ keyLabel FloatField.maxFloat.key ++ " (" ++ settingFloatText high ++ ")"

/-- The wording of several problems. -/
def Problem.joined (ps : List Problem) : String := String.intercalate "; " (ps.map Problem.message)

namespace Options

/-- The limits that have to be positive, in the order in which they are checked. -/
def positiveFields : List IntegerField := [.randomPoints, .programPoints, .stepLimit]

/-- **Every rule that the options break**, in a fixed order.  A float that is no number is in no order. -/
def problems (o : Options) : List Problem :=
  (positiveFields.filterMap fun f => if o.integer f < 1 then some (.tooSmall f (o.integer f)) else none)
    ++ (if 0.0 ≤ o.nameProbability && o.nameProbability ≤ 1.0 then [] else [.notProbability o.nameProbability])
    ++ (if o.minInteger > o.maxInteger then [.integerOrder o.minInteger o.maxInteger] else [])
    ++ (if o.minFloat ≤ o.maxFloat then [] else [.floatOrder o.minFloat o.maxFloat])

def Valid (o : Options) : Prop := o.problems = []

/-- Valid limits are positive. -/
theorem Valid.one_le {o : Options} (h : o.Valid) {f : IntegerField} (hf : f ∈ positiveFields) : 1 ≤ o.integer f := by
  have h₁ := (List.append_eq_nil_iff.1 (List.append_eq_nil_iff.1 (List.append_eq_nil_iff.1 h).1).1).1
  have h₂ := List.filterMap_eq_nil_iff.1 h₁ f hf
  simp only [ite_eq_right_iff, reduceCtorEq, imp_false] at h₂
  omega

/-- The options themselves, if they break no rule. -/
def validated (o : Options) : Except (List Problem) Options :=
  match o.problems with
  | [] => .ok o
  | ps => .error ps

end Options
end PushMachine
