import PushMachine.Proofs.IntegerRange
import PushMachine.Proofs.Lexical
import PushMachine.Proofs.Requests
import PushMachine.Random.Twister
/-!
# Random code comes out as asked for

If the options are valid and there is something to put at a leaf, then random code asks its source only for numbers
that are there.  So a tree comes out, of the size asked for, unless a new name was wanted and none was found or an integer
was drawn that is too long to be written; each leaf is an instruction that is allowed or a constant of an enabled type
(`random_code_of_valid`).  `code.rand` is itself something to put at a leaf, so where it runs there is always code to be
drawn.
-/
namespace PushMachine

variable {ρ : Type} [RandomSource ρ] {o : Options}

namespace RandomCode

/-- What a constant of a type may be, once these names are minted. -/
def IsConstant (o : Options) (minted : List String) : Kind → String → Prop
  | .integer, token => ∃ n : Int, o.minInteger ≤ n ∧ n ≤ o.maxInteger ∧ token = n.repr
  | .float,   token => ∃ x : Float, token = Number.floatText x
  | .boolean, token => token = "true" ∨ token = "false"
  | .name,    token => token ∈ minted
  | .exec,    _     => False
  | .code,    _     => False

/-- **What may stand at a leaf**: an allowed instruction, or a constant of an enabled type. -/
def Permitted (o : Options) (minted : List String) (token : String) : Prop :=
  (∃ i ∈ Instruction.all, o.allows i = true ∧ token = i.token) ∨ ∃ k, o.enables k = true ∧ IsConstant o minted k token

theorem Leaf.permitted (ho : o.Valid) {minted : List String} {token : String} (h : Leaf o minted token) :
    Permitted o minted token := by
  cases h with
  | instruction hi ha => exact .inl ⟨_, hi, ha, rfl⟩
  | integer he hn =>
    obtain ⟨hlow, hhigh⟩ := hn ho.minInteger_le
    exact .inr ⟨.integer, he, _, hlow, hhigh, rfl⟩
  | float x he => exact .inr ⟨.float, he, x, rfl⟩
  | boolean b he =>
    refine .inr ⟨.boolean, he, ?_⟩
    cases b
    · exact .inr rfl
    · exact .inl rfl
  | name he hn => exact .inr ⟨.name, he, hn⟩

end RandomCode

/-- There is something to put at a leaf. -/
def Options.HasLeaf (o : Options) : Prop :=
  (∃ i ∈ Instruction.all, o.allows i = true) ∨ ∃ k ∈ RandomCode.constantKinds, o.enables k = true

theorem Options.HasLeaf.pool_pos (h : o.HasLeaf) :
    0 < o.instructionTokens.length + (RandomCode.constantKinds.filter o.enables).length := by
  rcases h with ⟨i, hi, ha⟩ | ⟨k, hk, he⟩
  · exact Nat.add_pos_left (List.length_pos_iff.2 (instructionTokens_ne_nil hi ha)) _
  · exact Nat.add_pos_right _ (List.length_pos_iff.2 (List.ne_nil_of_mem (List.mem_filter.2 ⟨hk, he⟩)))

open Generator (Asks Starved)

/-- Every integer that may be drawn is short enough to be written. -/
def Options.DrawsWritable (o : Options) : Prop :=
  Number.isWritable o.minInteger = true ∧ Number.isWritable o.maxInteger = true

/-- A random integer was too long to be written, which takes a bound that is, and the generator ended there. -/
def Generator.Unwritten (o : Options) (r : Except Fault Tree × Supply ρ) : Prop :=
  o.enables .integer = true ∧ ¬ o.DrawsWritable ∧ r.1 = .error .integerTooLong

/-- **A tree comes out**, with a number of points that satisfies `P` and with leaves that are permitted, unless a new
name is wanted and none is found, or an integer is drawn that is too long to be written. -/
def Generator.Grows (o : Options) (P : Nat → Prop) (g : Generator ρ Tree) : Prop :=
  ∀ s, (∃ t s', g s = (.ok t, s') ∧ P t.points ∧ ∀ token ∈ t.tokens, RandomCode.Permitted o s'.minted token) ∨
    o.enables .name = true ∧ Starved s (g s) ∨ Unwritten o (g s)

open Generator (Unwritten)

namespace RandomCode

/-- Between bounds that can be written no integer is too long. -/
theorem Faulty.unwritten (ho : o.Valid) (h : Faulty o .integerTooLong) :
    o.enables .integer = true ∧ ¬ o.DrawsWritable := by
  cases h with
  | tooLong he hn hw =>
    obtain ⟨hlow, hhigh⟩ := hn ho.minInteger_le
    refine ⟨he, fun hd => ?_⟩
    rw [Number.isWritable_of_between hd.1 hd.2 hlow hhigh] at hw
    cases hw

/-- A generator that asks for numbers that are there grows what it yields. -/
theorem grows_of_asks (ho : o.Valid) {g : Generator ρ Tree} (hasks : g.Asks (0 < ·) (o.enables .name))
    (hleft : ∀ s, Generator.Left (o.enables .name) (Faulty o) (Leaves o) s (g s)) {P : Nat → Prop}
    (hpoints : g.Yields fun t => P t.points) : g.Grows o P := by
  intro s
  rcases hasks.ok_or_starved (Nat.lt_irrefl 0) s with ⟨t, s', ht⟩ | hstarved | hr
  · have hleaves := (hleft s).value t (by rw [ht])
    rw [ht] at hleaves
    exact .inl ⟨t, s', ht, hpoints s t s' ht, fun token htoken => (hleaves token htoken).permitted ho⟩
  · exact .inr (.inl hstarved)
  · obtain ⟨he, hd⟩ := ((hleft s).fault .integerTooLong hr).unwritten ho
    exact .inr (.inr ⟨he, hd, hr⟩)

section Valid

variable (ho : o.Valid) (hleaf : o.HasLeaf)

include ho

theorem integers_pos : 0 < (o.maxInteger - o.minInteger + 1).toNat := by
  have := ho.minInteger_le
  omega

include hleaf

/-- **All that random code asks for is there.** -/
theorem asks_upTo_of_valid (maxPoints : Int) : (upTo o maxPoints : Generator ρ Tree).Asks (0 < ·) (o.enables .name) :=
  asks_upTo (fun _ hn => hn) (integers_pos ho) hleaf.pool_pos maxPoints

/-- **Random code of a size has just that size**, or one point if that is more. -/
theorem grows_ofSize (size : Int) :
    (ofSize o size : Generator ρ Tree).Grows o fun points => (points : Int) = max 1 size :=
  grows_of_asks ho (asks_ofSize (fun _ hn => hn) (integers_pos ho) hleaf.pool_pos size) (treeWithin_left _ size)
    (ofSize_yields o size)

theorem grows_upTo (maxPoints : Int) :
    (upTo o maxPoints : Generator ρ Tree).Grows o fun points => 1 ≤ points ∧ (points : Int) ≤ max 1 maxPoints :=
  grows_of_asks ho (asks_upTo_of_valid ho hleaf maxPoints) (upTo_left maxPoints)
    fun s t s' ht => ⟨t.points_pos, upTo_yields o maxPoints s t s' ht⟩

end Valid

/-! ## Decompositions -/

/-- A decomposition only draws. -/
theorem exists_parts_eq : ∀ (maxParts : Nat) (n : Int) (s : Supply ρ),
    ∃ ps source, parts maxParts n s = (.ok ps, { s with source := source })
  | 0,            n, s => ⟨[n], s.source, rfl⟩
  | 1,            n, s => ⟨[n], s.source, rfl⟩
  | maxParts + 2, n, s => by
    rw [parts]
    split
    · rw [Generator.draw_bind]
      generalize Draw.between 1 (n - 1) s.source = drawn
      obtain ⟨ps, source, hps⟩ := exists_parts_eq (maxParts + 1) (n - drawn.1) { s with source := drawn.2 }
      rw [Generator.bind_of_ok hps]
      exact ⟨_, source, rfl⟩
    · exact ⟨[n], s.source, rfl⟩

theorem length_parts_yields : ∀ (maxParts : Nat) (n : Int),
    (parts maxParts n : Generator ρ (List Int)).Yields fun ps => ps.length ≤ max 1 maxParts
  | 0,            n => Generator.yields_pure (Nat.le_refl 1)
  | 1,            n => Generator.yields_pure (Nat.le_refl 1)
  | maxParts + 2, n => by
    rw [parts]
    split
    · refine (Generator.yields_draw (P := fun _ => True) fun _ => trivial).bind fun part _ => ?_
      refine (length_parts_yields (maxParts + 1) (n - part)).bind fun rest hrest => Generator.yields_pure ?_
      rw [List.length_cons]
      omega
    · exact Generator.yields_pure (by simp)

/-- **A positive number always falls into positive parts**, no more than asked for, that add up to it. -/
theorem exists_decompose_eq {number : Int} (hnumber : 1 ≤ number) (maxParts : Int) (s : Supply ρ) :
    ∃ ps source, decompose number maxParts s = (.ok ps, { s with source := source }) ∧
      (ps.length : Int) ≤ max 1 maxParts ∧ (∀ p ∈ ps, 1 ≤ p) ∧ ps.sum = number := by
  obtain ⟨ps, source, hps⟩ := exists_parts_eq maxParts.toNat number s
  have hlength : ps.length ≤ max 1 maxParts.toNat := length_parts_yields _ number s ps _ hps
  have hparts := parts_yields _ number hnumber s ps _ hps
  exact ⟨ps, source, hps, by omega, hparts⟩

end RandomCode

/-! ## The instruction -/

open RandomCode (upTo)

namespace CodeOp

variable {m : Machine ρ} {n : Int} {integers : Stack Int}

theorem random_of_zero (hi : m.integer = 0 :: integers) : random o m = .next m := by
  have hlimit : randomLimit o 0 < 1 := by unfold randomLimit; omega
  simp only [random, hi, hlimit, if_true]

theorem one_le_randomLimit (ho : o.Valid) (hn : n ≠ 0) : 1 ≤ randomLimit o n := by
  have hrandom : 1 ≤ o.randomPoints := ho.one_le (f := .randomPoints) (by decide)
  have hprogram : 1 ≤ o.programPoints := ho.one_le (f := .programPoints) (by decide)
  unfold randomLimit
  omega

theorem random_of_ok (hi : m.integer = n :: integers) (hlimit : 1 ≤ randomLimit o n) {t : Tree} {s' : Supply ρ}
    (h : upTo o (randomLimit o n) m.supply = (.ok t, s')) :
    random o m = .next { m with integer := integers, code := t :: m.code, supply := s' } := by
  simp only [random, hi, Int.not_lt.2 hlimit, if_false, h]

theorem random_of_error (hi : m.integer = n :: integers) (hlimit : 1 ≤ randomLimit o n) {e : Fault} {s' : Supply ρ}
    (h : upTo o (randomLimit o n) m.supply = (.error e, s')) :
    random o m = .stop e { m with integer := integers, supply := s' } := by
  simp only [random, hi, Int.not_lt.2 hlimit, if_false, h]

/-- What `code.rand` is sure to do with an integer that is not zero: it pushes a tree within the limits, unless no new
name is found or an integer is drawn that is too long to be written. -/
def Grown (o : Options) (m : Machine ρ) (n : Int) (integers : Stack Int) : Prop :=
  (∃ t s', upTo o (randomLimit o n) m.supply = (.ok t, s') ∧
      (Instruction.code .rand).run o m = .next { m with integer := integers, code := t :: m.code, supply := s' } ∧
      (t.points : Int) ≤ min (min (n.natAbs : Int) o.randomPoints) o.programPoints ∧
      ∀ token ∈ t.tokens, RandomCode.Permitted o s'.minted token) ∨
    (o.enables .name = true ∧ Starved m.supply (upTo o (randomLimit o n) m.supply) ∧
      ∃ m', (Instruction.code .rand).run o m = .stop .namesExhausted m') ∨
    Unwritten o (upTo o (randomLimit o n) m.supply) ∧ ∃ m', (Instruction.code .rand).run o m = .stop .integerTooLong m'

theorem grown_of_valid (ho : o.Valid) (hleaf : o.HasLeaf) (hi : m.integer = n :: integers) (hn : n ≠ 0) :
    Grown o m n integers := by
  have hlimit := one_le_randomLimit ho hn
  rcases RandomCode.grows_upTo ho hleaf (randomLimit o n) m.supply with
    ⟨t, s', ht, ⟨-, hpoints⟩, hleaves⟩ | ⟨hname, hstarved⟩ | hlong
  · refine .inl ⟨t, s', ht, random_of_ok hi hlimit ht, ?_, hleaves⟩
    rw [max_eq_right hlimit] at hpoints
    exact hpoints
  · obtain ⟨_, -, -, he⟩ := id hstarved
    exact .inr (.inl ⟨hname, hstarved, _, random_of_error hi hlimit (Prod.ext he rfl)⟩)
  · exact .inr (.inr ⟨hlong, _, random_of_error hi hlimit (Prod.ext hlong.2.2 rfl)⟩)

end CodeOp

/-- **Random code has the size asked for and leaves that are permitted.**  Under valid options, and if there is
something to put at a leaf, random code of a size has exactly that size and random code up to a size has at most that
many points, or one point if that is more.  A positive number is split into positive parts that add up.  Where
`code.rand` is allowed it leaves a zero alone; for any other integer all that it asks of the source is there, and the
tree that it pushes has no more points than the magnitude of the integer and both limits permit. -/
theorem random_code_of_valid (ho : o.Valid) :
    (o.HasLeaf →
      (∀ size, (RandomCode.ofSize o size : Generator ρ Tree).Grows o fun points => (points : Int) = max 1 size) ∧
      (∀ maxPoints, (upTo o maxPoints : Generator ρ Tree).Grows o fun points =>
        1 ≤ points ∧ (points : Int) ≤ max 1 maxPoints)) ∧
    (∀ (number maxParts : Int) (s : Supply ρ), 1 ≤ number →
      ∃ ps source, RandomCode.decompose number maxParts s = (.ok ps, { s with source := source }) ∧
        (ps.length : Int) ≤ max 1 maxParts ∧ (∀ p ∈ ps, 1 ≤ p) ∧ ps.sum = number) ∧
    (o.allows (.code .rand) = true → ∀ (m : Machine ρ) (n : Int) (integers : Stack Int), m.integer = n :: integers →
      (n = 0 → (Instruction.code .rand).run o m = .next m) ∧
      (n ≠ 0 → (upTo o (CodeOp.randomLimit o n) : Generator ρ Tree).Asks (0 < ·) (o.enables .name) ∧
        CodeOp.Grown o m n integers)) := by
  refine ⟨fun hleaf => ⟨RandomCode.grows_ofSize ho hleaf, RandomCode.grows_upTo ho hleaf⟩,
    fun number maxParts s hnumber => RandomCode.exists_decompose_eq hnumber maxParts s,
    fun ha m n integers hi => ⟨?_, fun hn => ?_⟩⟩
  · rintro rfl
    exact CodeOp.random_of_zero hi
  · have hleaf : o.HasLeaf := .inl ⟨_, by decide, ha⟩
    exact ⟨RandomCode.asks_upTo_of_valid ho hleaf _, CodeOp.grown_of_valid ho hleaf hi hn⟩

/-- Without NAME a tree of five points always comes out, and `code.rand` pushes one of at most four for minus four. -/
theorem random_code_of_valid_nameless :
    let o : Options := { types := ["code", "integer"] }
    let m : Machine Twister := { Machine.initial (Twister.ofSeed 0) with integer := [-4] }
    (o.Valid ∧ o.HasLeaf ∧ o.allows (.code .rand) = true ∧ o.enables .name = false) ∧
    (∃ t s', RandomCode.ofSize o 5 m.supply = (.ok t, s') ∧ t.points = 5) ∧
    (∃ ps source, RandomCode.decompose 7 3 m.supply = (.ok ps, { m.supply with source := source }) ∧
      ps.length ≤ 3 ∧ (∀ p ∈ ps, 1 ≤ p) ∧ ps.sum = 7) ∧
    (∃ t s', (Instruction.code .rand).run o m = .next { m with integer := [], code := [t], supply := s' } ∧
      t.points ≤ 4) := by
  intro o m
  have ho : Options.Valid { types := ["code", "integer"] } := rfl
  have hleaf : o.HasLeaf := .inr ⟨.integer, by decide, by decide⟩
  have hrand : o.allows (.code .rand) = true := by decide
  have hname : o.enables .name = false := by decide
  have hdraws : o.DrawsWritable := ⟨by decide, by decide⟩
  obtain ⟨hgrows, hdecompose, hcode⟩ := random_code_of_valid (ρ := Twister) ho
  refine ⟨⟨ho, hleaf, hrand, hname⟩, ?_, ?_, ?_⟩
  · rcases (hgrows hleaf).1 5 m.supply with ⟨t, s', ht, hpoints, -⟩ | ⟨hen, -⟩ | ⟨-, hnot, -⟩
    · exact ⟨t, s', ht, by omega⟩
    · rw [hname] at hen
      cases hen
    · exact absurd hdraws hnot
  · obtain ⟨ps, source, hps, hlength, hpos, hsum⟩ := hdecompose 7 3 m.supply (by decide)
    exact ⟨ps, source, hps, by omega, hpos, hsum⟩
  · rcases ((hcode hrand m (-4) [] rfl).2 (by decide)).2 with
      ⟨t, s', -, ht, hpoints, -⟩ | ⟨hen, -⟩ | ⟨⟨-, hnot, -⟩, -⟩
    · have hfour : (t.points : Int) ≤ min (min 4 25) 100 := hpoints
      exact ⟨t, s', ht, by omega⟩
    · rw [hname] at hen
      cases hen
    · exact absurd hdraws hnot

end PushMachine
