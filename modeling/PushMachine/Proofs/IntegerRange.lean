import PushMachine.Proofs.Course
import PushMachine.Proofs.Literal
import PushMachine.Proofs.Origin
import PushMachine.Random.Twister
/-!
# The range of INTEGER

Literals are of 64 bits, sums, differences, products and quotients wrap, a float is clamped, and a remainder lies between
zero and its divisor.  Counts of items and of points are what the memory of a machine bounds.  So only `integer.rand` can
put an integer beyond 64 bits on INTEGER, and only if it draws from an interval that holds one
(`int64_or_rand_of_step`).  A counted loop goes from its index toward its last index or from zero to below its count, so
the integers that it writes into a program are as small as those it takes (`int64_of_loop`).
-/
namespace PushMachine

/-- The integers that `integer.rand` draws are of 64 bits. -/
def Options.DrawsInt64 (o : Options) : Prop := Number.int64Min ≤ o.minInteger ∧ o.maxInteger ≤ Number.int64Max

instance (o : Options) : Decidable o.DrawsInt64 :=
  inferInstanceAs (Decidable (Number.int64Min ≤ o.minInteger ∧ o.maxInteger ≤ Number.int64Max))

theorem Options.Valid.minInteger_le {o : Options} (h : o.Valid) : o.minInteger ≤ o.maxInteger := by
  have horder := (List.append_eq_nil_iff.1 (List.append_eq_nil_iff.1 h).1).2
  by_cases hgt : o.minInteger > o.maxInteger
  · rw [if_pos hgt] at horder
    cases horder
  · omega

namespace Number

theorem inInt64_clamp (n : Int) : inInt64 (clamp n) = true := by
  rw [inInt64_iff, clamp, int64Min, int64Max]
  omega

/-- A remainder has the sign of its divisor and is smaller. -/
theorem inInt64_fmod {b : Int} (hb : inInt64 b = true) (hne : b ≠ 0) (a : Int) : inInt64 (a.fmod b) = true := by
  rw [inInt64_iff] at hb ⊢
  rcases Int.lt_or_gt_of_ne hne with hneg | hpos
  · have h₁ := Int.fmod_nonneg_of_pos (-a) (Int.neg_pos_of_neg hneg)
    have h₂ := Int.fmod_lt_of_pos (-a) (Int.neg_pos_of_neg hneg)
    rw [Int.neg_fmod_neg] at h₁ h₂
    omega
  · have h₁ := Int.fmod_nonneg_of_pos a hpos
    have h₂ := Int.fmod_lt_of_pos a hpos
    omega

end Number

theorem Tree.length_le_pointsAll : ∀ ts : List Tree, ts.length ≤ pointsAll ts
  | []      => Nat.zero_le _
  | t :: ts => by
    have h₁ := t.points_pos
    have h₂ := length_le_pointsAll ts
    rw [List.length_cons, pointsAll_cons]
    omega

theorem Tree.length_items_le (t : Tree) : t.items.length ≤ t.points := by
  cases t with
  | atom token => rw [items, points_atom, List.length_singleton]
  | list ts =>
    have := length_le_pointsAll ts
    rw [items, points_list]
    omega

variable {ρ : Type}

theorem IntegerOp.integer_random [RandomSource ρ] (o : Options) (m : Machine ρ) :
    (random o m).integer = (Draw.between o.minInteger o.maxInteger m.supply.source).1 :: m.integer := rfl

namespace Machine

/-- Every integer on INTEGER is of 64 bits. -/
def Int64 (m : Machine ρ) : Prop := ∀ n ∈ m.integer, Number.inInt64 n = true

/-- Every stack is less deep than `2 ^ 63`, and every tree has fewer points. -/
def Small (m : Machine ρ) : Prop := (∀ k, (m.stack k).length < 2 ^ 63) ∧ ∀ t ∈ m.trees, t.points < 2 ^ 63

instance (m : Machine ρ) : Decidable m.Small :=
  decidable_of_iff ((∀ k ∈ Kind.all, (m.stack k).length < 2 ^ 63) ∧ ∀ t ∈ m.trees, t.points < 2 ^ 63)
    (and_congr_left fun _ => ⟨fun h k => h k k.mem_all, fun h k _ => h k⟩)

theorem Small.popped {m : Machine ρ} (hs : m.Small) {t : Tree} {rest : Stack Tree} (he : m.exec = t :: rest) :
    (m.popped rest).Small := by
  refine ⟨fun k => ?_, fun u hu => hs.2 u ?_⟩
  · by_cases hk : k = .exec
    · subst hk
      have hlen : m.exec.length < 2 ^ 63 := hs.1 .exec
      rw [he, List.length_cons] at hlen
      show rest.length < 2 ^ 63
      omega
    · have hsame : (m.popped rest).stack k = m.stack k := by
        cases k <;> first | rfl | exact absurd rfl hk
      rw [hsame]
      exact hs.1 k
  · have hu : u ∈ rest ++ m.code ++ m.bindings.trees := hu
    rw [trees, he]
    simp only [List.mem_append, List.mem_cons] at hu ⊢
    tauto

variable [RandomSource ρ] {o : Options} {m : Machine ρ}

/-! ## One step -/

theorem int64_or_rand_of_makes (hv : o.Valid) (hm : m.Int64) (hs : m.Small) {i : Instruction} {n : Int}
    (h : i.Makes o m .integer n) : Number.inInt64 n = true ∨ i = .integer .rand ∧ o.minInteger ≤ n ∧ n ≤ o.maxInteger := by
  have hcode : ∀ t ∈ m.code, t.points < 2 ^ 63 := fun t ht =>
    hs.2 t (List.mem_append_left _ (List.mem_append_right _ ht))
  cases h with
  | depth k =>
    have := hs.1 k
    exact .inl (Number.inInt64_iff.2 (by omega))
  | wrapped op k => exact .inl (Number.inInt64_wrap k)
  | remainder ha hb hne => exact .inl (Number.inInt64_fmod (hm _ hb) hne _)
  | truth b => cases b <;> exact .inl rfl
  | clamped k => exact .inl (Number.inInt64_clamp k)
  | drawn => exact .inr ⟨rfl, Draw.between_bounds hv.minInteger_le _⟩
  | @length t ht =>
    have := hcode t ht
    have := t.length_items_le
    exact .inl (Number.inInt64_iff.2 (by omega))
  | @size t ht =>
    have := hcode t ht
    exact .inl (Number.inInt64_iff.2 (by omega))

theorem int64_or_rand_of_step (hv : o.Valid) (hm : m.Int64) (hs : m.Small) {out : Outcome Stop ρ}
    (h : m.step o = some out) : out.machine.Int64 ∨ m.NextRuns o (.integer .rand) ∧ ¬ o.DrawsInt64 := by
  obtain ⟨item, rest, he, -, horigin⟩ := step_origin h
  by_cases hall : out.machine.Int64
  · exact .inl hall
  -- an integer beyond 64 bits was not there, and no literal is one
  obtain ⟨n, hn, hout⟩ : ∃ n ∈ out.machine.integer, ¬ Number.inInt64 n = true := by
    simpa only [Int64, not_forall, exists_prop] using hall
  rcases horigin .integer n hn with hold | hg
  · exact absurd (hm n hold) hout
  · cases hg with
    | integer hc => exact absurd (Token.inInt64_of_classify hc) hout
    | @made token stack operation i _ _ hc hr hmk =>
      have hp : (m.popped rest).Int64 := hm
      rcases int64_or_rand_of_makes hv hp (hs.popped he) hmk with hin | ⟨rfl, hlow, hhigh⟩
      · exact absurd hin hout
      · refine .inr ⟨⟨token, stack, operation, rest, ⟨he, hc⟩, hr⟩, fun hd => hout ?_⟩
        rw [Options.DrawsInt64, Number.int64Min, Number.int64Max] at hd
        exact Number.inInt64_iff.2 (by omega)

/-- A draw from an interval beyond 64 bits leaves them. -/
theorem not_int64_of_rand (hv : o.Valid) (hd : Number.int64Max < o.minInteger) (hr : m.NextRuns o (.integer .rand))
    {out : Outcome Stop ρ} (h : m.step o = some out) : ¬ out.machine.Int64 := by
  obtain ⟨token, stack, operation, rest, ⟨he, hc⟩, hres⟩ := hr
  have hout : out = .next (IntegerOp.random o (m.popped rest)) := by
    rw [step_of_exec he, Option.some.injEq] at h
    rw [← h]
    simp only [execute, hc, hres, Instruction.run, IntegerOp.run, popped]
  rw [hout]
  intro hall
  have hmem : (Draw.between o.minInteger o.maxInteger (m.popped rest).supply.source).1 ∈
      (IntegerOp.random o (m.popped rest)).integer := by
    rw [IntegerOp.integer_random]
    exact List.mem_cons_self
  have hlow := (Draw.between_bounds hv.minInteger_le (m.popped rest).supply.source).1
  have hhigh := (Number.inInt64_iff.1 (hall _ hmem)).2
  rw [Number.int64Max] at hd
  omega

/-! ## Sessions -/

theorem int64_of_session (hv : o.Valid) (hd : o.DrawsInt64) (hm : m.Int64) (texts : List String)
    (hs : ∀ p ∈ sessionPops o m texts, p.Small) :
    (∀ p ∈ sessionPops o m texts, p.Int64) ∧ (m.runAll o texts).Int64 := by
  refine session_invariant (P := Int64) (Q := Small) (fun p out hp hsmall hstep => ?_) (fun p hp => ?_)
    (fun p text t _ hp => ?_) texts m hm hs
  · rcases int64_or_rand_of_step hv hp hsmall hstep with h | ⟨-, h⟩
    · exact h
    · exact absurd hd h
  · have hsame : (p.finish o).integer = p.integer := by unfold finish; split <;> rfl
    intro n hn
    exact hp n (hsame ▸ hn)
  · have hsame : ((p.start o t).load t).integer = p.integer := by unfold start; split <;> rfl
    intro n hn
    exact hp n (hsame ▸ hn)

/-! ## Counted loops -/

/-- The instructions that write a counted loop into the program. -/
def loopOps : List ExecOp := [.doRange, .doCount, .doTimes]

theorem int64_of_loop (hm : m.Int64) {op : ExecOp} (hop : op ∈ loopOps) {t : Tree}
    (ht : t ∈ (op.run o m).machine.exec) :
    t ∈ m.exec ∨ ∃ first last body, t = ExecOp.rangeLoop first last body ∧
      Number.inInt64 first = true ∧ Number.inInt64 last = true := by
  rcases (Instruction.exec op).run_origin o m .exec t ht with hold | hmk
  · exact .inl hold
  · cases hmk with
    | pair | recursion => simp [loopOps] at hop
    | @range current last body hc hl hne _ =>
      refine .inr ⟨_, _, body, rfl, ?_, hm last hl⟩
      have h₁ := Number.inInt64_iff.1 (hm current hc)
      have h₂ := Number.inInt64_iff.1 (hm last hl)
      unfold ExecOp.nearer
      rw [Number.inInt64_iff]
      split <;> omega
    | @count n body hn hpos _ | @times n body hn hpos _ =>
      have h := Number.inInt64_iff.1 (hm n hn)
      exact .inr ⟨0, n - 1, _, rfl, rfl, Number.inInt64_iff.2 (by omega)⟩

omit [RandomSource ρ] in
/-- Indices of 64 bits can be written. -/
theorem exists_next_of_loop (hm : m.Int64) {op : ExecOp} (hop : op ∈ loopOps) : ∃ m', op.run o m = .next m' := by
  have hbuilt : ∀ (first last : Int) (body : Tree), Number.inInt64 first = true → Number.inInt64 last = true →
      ExecOp.buildLoop first last body = .ok (ExecOp.rangeLoop first last body) := fun first last body h₁ h₂ =>
    ExecOp.buildLoop_of_writable (Number.isWritable_of_inInt64 h₁) (Number.isWritable_of_inInt64 h₂) body
  have hcount : ∀ wrapBody, ∃ m', ExecOp.countWith o wrapBody m = .next m' := fun wrapBody => by
    unfold ExecOp.countWith
    split
    · rename_i n integers body rest hi _
      split
      · exact ⟨m, rfl⟩
      · have hn := Number.inInt64_iff.1 (hm n (by rw [hi]; exact List.mem_cons_self))
        rw [hbuilt 0 (n - 1) _ rfl (Number.inInt64_iff.2 (by omega))]
        dsimp only
        split <;> exact ⟨_, rfl⟩
    · exact ⟨m, rfl⟩
  cases op with
  | choose | k | s | y => simp [loopOps] at hop
  | doRange =>
    simp only [ExecOp.run]
    unfold ExecOp.range
    split
    · rename_i last current integers body rest hi _
      split
      · exact ⟨_, rfl⟩
      · have hlast := hm last (by rw [hi]; exact List.mem_cons_self)
        have h₁ := Number.inInt64_iff.1 hlast
        have h₂ := Number.inInt64_iff.1 (hm current (by rw [hi]; simp))
        have hnext : Number.inInt64 (if current < last then current + 1 else current - 1) = true :=
          Number.inInt64_iff.2 (by split <;> omega)
        generalize (if current < last then current + 1 else current - 1) = next at hnext ⊢
        rw [hbuilt next last body hnext hlast]
        dsimp only
        split <;> exact ⟨_, rfl⟩
    · exact ⟨m, rfl⟩
  | doCount | doTimes => exact hcount _

/-- **Only `integer.rand` leaves 64 bits**, and only where its interval does.  Where the interval does not, a session
that starts with nothing stays within 64 bits, and the two integers of every loop that a counting instruction writes are
literals of 64 bits again. -/
theorem int64_unless_rand (o : Options) (hv : o.Valid) :
    (∀ (m : Machine ρ) (out : Outcome Stop ρ), m.Int64 → m.Small → m.step o = some out → ¬ out.machine.Int64 →
      m.NextRuns o (.integer .rand) ∧ ¬ o.DrawsInt64) ∧
    (o.DrawsInt64 → ∀ (source : ρ) (texts : List String), (∀ p ∈ sessionPops o (initial source) texts, p.Small) →
      (∀ p ∈ sessionPops o (initial source) texts, p.Int64) ∧ ((initial source).runAll o texts).Int64) ∧
    (∀ (m : Machine ρ), m.Int64 → ∀ op ∈ loopOps, ∃ m', op.run o m = .next m' ∧ ∀ t ∈ m'.exec, t ∈ m.exec ∨
      ∃ first last body, t = .list [.atom first.repr, .atom last.repr, ExecOp.rangeToken, body] ∧
        Token.classify first.repr = .ok (.integer first) ∧ Token.classify last.repr = .ok (.integer last) ∧
        Number.inInt64 first = true ∧ Number.inInt64 last = true) := by
  refine ⟨fun m out hm hs h hout => ?_, fun hd source texts hs => ?_, fun m hm op hop => ?_⟩
  · exact (int64_or_rand_of_step hv hm hs h).resolve_left hout
  · have hinit : (initial source).Int64 := List.forall_mem_nil _
    exact int64_of_session hv hd hinit texts hs
  · obtain ⟨m', hrun⟩ := exists_next_of_loop (o := o) hm hop
    refine ⟨m', hrun, fun t ht => ?_⟩
    rcases int64_of_loop (o := o) hm hop (by rw [hrun]; exact ht) with hold | ⟨first, last, body, rfl, h₁, h₂⟩
    · exact .inl hold
    · exact .inr ⟨first, last, body, rfl, Token.classify_repr h₁, Token.classify_repr h₂, h₁, h₂⟩

/-- A draw from an interval beyond 64 bits leaves them; the quotient of the least integer by minus one does not. -/
theorem int64_unless_rand_quotient :
    (({ minInteger := 2 ^ 63, maxInteger := 2 ^ 63 } : Options).Valid ∧
      ∃ out, ((initial (Twister.ofSeed 0)).load (.atom "integer.rand")).step
          { minInteger := 2 ^ 63, maxInteger := 2 ^ 63 } = some out ∧ ¬ out.machine.Int64 ∧
        ((initial (Twister.ofSeed 0)).load (.atom "integer.rand")).NextRuns
          { minInteger := 2 ^ 63, maxInteger := 2 ^ 63 } (.integer .rand) ∧
        ¬ Options.DrawsInt64 { minInteger := 2 ^ 63, maxInteger := 2 ^ 63 }) ∧
    (({} : Options).Valid ∧ Options.DrawsInt64 {} ∧
      ((initial (Twister.ofSeed 0)).runAll {} ["-9223372036854775808 -1 integer./"]).integer = [-2 ^ 63] ∧
      ((initial (Twister.ofSeed 0)).runAll {} ["-9223372036854775808 -1 integer./"]).Int64) := by
  obtain ⟨out, hout⟩ : ∃ out, ((initial (Twister.ofSeed 0)).load (.atom "integer.rand")).step
      { minInteger := 2 ^ 63, maxInteger := 2 ^ 63 } = some out := ⟨_, step_of_exec rfl⟩
  have hnot : ¬ out.machine.Int64 :=
    not_int64_of_rand (o := { minInteger := 2 ^ 63, maxInteger := 2 ^ 63 }) rfl (by decide) ⟨"integer.rand", "integer", "rand", [], ⟨rfl, rfl⟩, rfl⟩ hout
  refine ⟨⟨rfl, out, hout, hnot, ?_⟩, rfl, by decide, by decide +kernel, ?_⟩
  · exact (int64_unless_rand { minInteger := 2 ^ 63, maxInteger := 2 ^ 63 } rfl).1 _ _ (List.forall_mem_nil _)
      (by decide +kernel) hout hnot
  · exact ((int64_unless_rand {} rfl).2.1 (by decide) (Twister.ofSeed 0) ["-9223372036854775808 -1 integer./"]
      (by decide +kernel)).2

end Machine
end PushMachine
