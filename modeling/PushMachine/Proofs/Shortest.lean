import Mathlib.Data.Rat.Floor
import PushMachine.Proofs.Rounding
/-!
# The shortest decimal rounds back

Every point of a decimal grid that is taken for a magnitude is attracted by it (`attracts_of_gridPoint?`).  On the grid
of 17 digits there is always one, because its steps are finer than the gap between the midpoints
(`gridPoint?_ne_none`).  So the shortest decimal of a magnitude rounds to it (`attracts_shortest`).
-/
namespace PushMachine
namespace Number

/-! ## Decimal scales -/

theorem Dyadic.ratio_eq (d : Dyadic) : (d.ratio.1 : ℚ) / d.ratio.2 = d.value := by
  rw [ratio, scaleDown_eq, zpow_neg, Nat.cast_one, div_one, div_inv_eq_mul, value]

theorem Dyadic.ratio_pos (d : Dyadic) : 0 < d.ratio.2 := scaleDown_pos _ Nat.one_pos _

/-- The first guess at a decimal logarithm is small enough for the binary logarithms of floats, from -1074 on. -/
theorem least_guess : ∀ i ∈ List.range 2098, 10 ^ ((i * 30103 + 69378) / 100000) * 2 ^ 1074 ≤ 2 ^ i * 10 ^ 325 := by
  decide +kernel

theorem log10Ratio_le {num den : Nat} (hn : 0 < num) (hd : 0 < den) (hlow : -1074 ≤ log2Ratio num den)
    (hhigh : log2Ratio num den ≤ 1023) : (10 : ℚ) ^ log10Ratio num den ≤ num / den := by
  have hreached : ∀ e : Int, (scaleDownTen num den e).2 ≤ (scaleDownTen num den e).1 → (10 : ℚ) ^ e ≤ num / den := by
    intro e he
    rw [scaleDownTen_eq_scaleDownBy] at he
    exact_mod_cast (scaleDownBy_le_iff (by decide : 0 < 10) num hd e).1 he
  have hleast : (10 : ℚ) ^ ((log2Ratio num den * 30103).fdiv 100000 - 1) ≤ num / den := by
    refine le_trans ?_ (log2Ratio_spec hn hd).1
    obtain ⟨i, hi⟩ : ∃ i : Nat, log2Ratio num den = i - 1074 := ⟨(log2Ratio num den + 1074).toNat, by omega⟩
    have hexp : (log2Ratio num den * 30103).fdiv 100000 - 1 = ((i * 30103 + 69378) / 100000 : Nat) - 325 := by
      rw [Int.fdiv_eq_ediv_of_nonneg _ (by decide), hi]
      omega
    have hguess : (10 : ℚ) ^ ((i * 30103 + 69378) / 100000) * 2 ^ 1074 ≤ 2 ^ i * 10 ^ 325 := by
      exact_mod_cast least_guess i (List.mem_range.2 (by omega))
    rw [hexp, hi, zpow_sub₀ (by norm_num : (10 : ℚ) ≠ 0), zpow_sub₀ two_ne_zero,
      div_le_div_iff₀ (by positivity) (by positivity)]
    exact hguess
  unfold log10Ratio
  dsimp only
  split
  · rename_i h
    exact hreached _ (of_decide_eq_true h)
  split
  · rename_i h
    exact hreached _ (of_decide_eq_true h)
  split
  · rename_i h
    exact hreached _ (of_decide_eq_true h)
  · exact hleast

/-! ## Grids -/

/-- A quarter of the last place in steps of the grid `10 ^ p`, as a numerator and a denominator. -/
def quarterSteps (d : Dyadic) (p : Int) : Nat × Nat :=
  let (quarter, den₀) := (Dyadic.mk 1 (d.exponent - 2)).ratio
  let (scale, den) := scaleDownTen 1 den₀ p
  (quarter * scale, den)

theorem quarterSteps_eq (d : Dyadic) (p : Int) :
    ((quarterSteps d p).1 : ℚ) / (quarterSteps d p).2 = 2 ^ (d.exponent - 2) / 10 ^ p := by
  have hscale := scaleDownBy_eq 10 1 (Dyadic.mk 1 (d.exponent - 2)).ratio.2 p
  have hquarter := (Dyadic.mk 1 (d.exponent - 2)).ratio_eq
  simp only [Dyadic.value, Nat.cast_one, one_mul, Nat.cast_ofNat] at hquarter hscale
  unfold quarterSteps
  dsimp only
  rw [scaleDownTen_eq_scaleDownBy, Nat.cast_mul, mul_div_assoc, hscale, mul_div_assoc', mul_one_div, hquarter]

theorem quarterSteps_pos (d : Dyadic) (p : Int) : 0 < (quarterSteps d p).2 :=
  scaleDownBy_pos (by decide) 1 (Dyadic.ratio_pos _) p

/-- Not below the interval, for `k` steps. -/
def Interval.NotBelow (i : Interval) (step den k : Nat) : Prop :=
  if i.closed then i.low * step ≤ k * den else i.low * step < k * den

/-- Not above the interval, for `k` steps. -/
def Interval.NotAbove (i : Interval) (step den k : Nat) : Prop :=
  if i.closed then k * den ≤ i.high * step else k * den < i.high * step

/-- Both neighbours on a grid are looked at, and one is taken if it is inside the interval on its side. -/
theorem gridPoint?_cases {d : Dyadic} {p : Int} {step den : Nat} (h : quarterSteps d p = (step, den)) :
    (gridPoint? d p = none ∧ ¬ (Interval.around d).NotBelow step den (4 * d.mantissa * step / den) ∧
      ¬ (Interval.around d).NotAbove step den (4 * d.mantissa * step / den + 1)) ∨
    (gridPoint? d p = some (4 * d.mantissa * step / den) ∧
      (Interval.around d).NotBelow step den (4 * d.mantissa * step / den)) ∨
    (gridPoint? d p = some (4 * d.mantissa * step / den + 1) ∧
      (Interval.around d).NotAbove step den (4 * d.mantissa * step / den + 1)) := by
  obtain ⟨rfl, rfl⟩ := Prod.mk.inj h
  unfold gridPoint? Interval.NotBelow Interval.NotAbove
  dsimp only
  cases (Interval.around d).closed
  all_goals
    simp only [Nat.mul_assoc, if_true, Bool.false_eq_true, if_false]
    split
    · rename_i hin
      rw [Bool.and_eq_true, decide_eq_true_eq, decide_eq_true_eq] at hin
      split
      · exact .inr (.inl ⟨rfl, hin.1⟩)
      · exact .inr (.inr ⟨rfl, hin.2⟩)
    · split
      · rename_i hin
        exact .inr (.inl ⟨rfl, hin⟩)
      · rename_i hbelow
        split
        · rename_i hin
          exact .inr (.inr ⟨rfl, hin⟩)
        · rename_i habove
          exact .inl ⟨rfl, hbelow, habove⟩

theorem quarterSteps_fst_pos (d : Dyadic) (p : Int) : 0 < (quarterSteps d p).1 := by
  by_contra hzero
  have heq := quarterSteps_eq d p
  rw [show (quarterSteps d p).1 = 0 by omega, Nat.cast_zero, zero_div] at heq
  exact absurd heq (by positivity)

/-- A point of a grid in quarters of the last place. -/
theorem gridPoint_quarters (d : Dyadic) (p : Int) (k : Nat) :
    (k * 10 ^ p : ℚ) / 2 ^ (d.exponent - 2) = k * (quarterSteps d p).2 / (quarterSteps d p).1 := by
  have hstep := quarterSteps_eq d p
  have hden : ((quarterSteps d p).2 : ℚ) ≠ 0 := by exact_mod_cast (quarterSteps_pos d p).ne'
  have hnum : ((quarterSteps d p).1 : ℚ) ≠ 0 := by exact_mod_cast (quarterSteps_fst_pos d p).ne'
  have hten : (10 : ℚ) ^ p ≠ 0 := by positivity
  have htwo : (2 : ℚ) ^ (d.exponent - 2) ≠ 0 := by positivity
  rw [div_eq_div_iff hden hten] at hstep
  rw [div_eq_div_iff htwo hnum, mul_assoc, mul_comm ((10 : ℚ) ^ p), hstep, mul_comm ((2 : ℚ) ^ _), mul_assoc]

variable {d : Dyadic} {p : Int} {k : Nat}

/-- **A point that is taken for a magnitude rounds to it.** -/
theorem attracts_of_gridPoint? (hm : 0 < d.mantissa) (h : gridPoint? d p = some k) : d.Attracts (k * 10 ^ p) := by
  have hden := quarterSteps_pos d p
  have hstep := quarterSteps_fst_pos d p
  have hquarters := gridPoint_quarters d p k
  cases hs : quarterSteps d p with
  | mk step den =>
    rw [hs] at hden hstep hquarters
    dsimp only at hden hstep hquarters
    have hstepq : (0 : ℚ) < step := by exact_mod_cast hstep
    have hlow : (Interval.around d).low < 4 * d.mantissa := by
      have := d.reach_pos
      rw [d.low_around]
      omega
    -- the point below is not above the magnitude, and the point above is above it
    have hbelow : 4 * d.mantissa * step / den * den < (Interval.around d).high * step :=
      lt_of_le_of_lt (Nat.div_mul_le_self _ _) (Nat.mul_lt_mul_of_pos_right (Nat.lt_add_of_pos_right (by decide)) hstep)
    have habove : (Interval.around d).low * step < (4 * d.mantissa * step / den + 1) * den := by
      rw [Nat.mul_comm (_ + 1)]
      exact (Nat.mul_lt_mul_of_pos_right hlow hstep).trans (Nat.lt_mul_div_succ _ hden)
    have hboth : (Interval.around d).NotBelow step den k ∧ (Interval.around d).NotAbove step den k := by
      unfold Interval.NotBelow Interval.NotAbove
      rcases gridPoint?_cases hs with ⟨hnone, -⟩ | ⟨hsome, hin⟩ | ⟨hsome, hin⟩
      · rw [h] at hnone
        cases hnone
      · rw [h] at hsome
        cases hsome
        refine ⟨hin, ?_⟩
        split
        · exact hbelow.le
        · exact hbelow
      · rw [h] at hsome
        cases hsome
        refine ⟨?_, hin⟩
        split
        · exact habove.le
        · exact habove
    unfold Dyadic.Attracts Interval.Contains
    unfold Interval.NotBelow Interval.NotAbove at hboth
    rw [hquarters, le_div_iff₀ hstepq, div_le_iff₀ hstepq, lt_div_iff₀ hstepq, div_lt_iff₀ hstepq]
    norm_cast
    split
    · rename_i hclosed
      rwa [if_pos hclosed, if_pos hclosed] at hboth
    · rename_i hclosed
      rwa [if_neg hclosed, if_neg hclosed] at hboth

/-- Where no point is taken, the interval is no wider than a step. -/
theorem width_le_step (hm : 0 < d.mantissa) (h : gridPoint? d p = none) :
    ((d.reach + 2 : Nat) : ℚ) * 2 ^ (d.exponent - 2) ≤ 10 ^ p := by
  have hden := quarterSteps_pos d p
  have heq := quarterSteps_eq d p
  cases hs : quarterSteps d p with
  | mk step den =>
    rw [hs] at hden heq
    dsimp only at hden heq
    have hfit : (Interval.around d).high * step ≤ (Interval.around d).low * step + den := by
      rcases gridPoint?_cases hs with ⟨-, hbelow, habove⟩ | ⟨hsome, -⟩ | ⟨hsome, -⟩
      · unfold Interval.NotBelow at hbelow
        unfold Interval.NotAbove at habove
        split at habove
        · rename_i hclosed
          rw [if_pos hclosed] at hbelow
          linarith
        · rename_i hclosed
          rw [if_neg hclosed] at hbelow
          linarith
      · rw [h] at hsome
        cases hsome
      · rw [h] at hsome
        cases hsome
    have hsteps : (d.reach + 2) * step ≤ den := by
      have hreach := d.reach_le
      have hwidth : (Interval.around d).high = (Interval.around d).low + (d.reach + 2) := by
        rw [d.high_around, d.low_around]
        omega
      rw [hwidth, Nat.add_mul] at hfit
      omega
    have hdenq : (0 : ℚ) < den := by exact_mod_cast hden
    have hunit : ((d.reach + 2 : Nat) : ℚ) * (step / den) ≤ 1 := by
      rw [← mul_div_assoc, div_le_one₀ hdenq]
      exact_mod_cast hsteps
    rwa [heq, ← mul_div_assoc, div_le_one₀ (by positivity)] at hunit

/-- **Seventeen digits suffice**: steps of at most `10 ^ -16` of a magnitude are finer than its interval. -/
theorem gridPoint?_ne_none {bits : Nat} (hb : d.Encodes bits) (hm : 0 < d.mantissa) (hp : 10 ^ p * 10 ^ 16 ≤ d.value) :
    gridPoint? d p ≠ none := by
  intro hnone
  have hwidth := width_le_step hm hnone
  have hpos : (0 : ℚ) < 2 ^ d.exponent := by positivity
  have hle : (d.reach + 2) * 10 ^ 16 ≤ 4 * d.mantissa := by
    rw [zpow_sub₀ two_ne_zero] at hwidth
    unfold Dyadic.value at hp
    have : ((d.reach + 2 : Nat) : ℚ) * 10 ^ 16 * 2 ^ d.exponent ≤ 4 * d.mantissa * 2 ^ d.exponent := by
      norm_num at hwidth hp ⊢
      linarith
    exact_mod_cast le_of_mul_le_mul_right this hpos
  have hlt := hb.mantissa_lt
  unfold Dyadic.reach at hle
  rw [hiddenBit] at hlt hle
  split at hle <;> omega

/-! ## The shortest decimal -/

def Scaled.value (s : Scaled) : ℚ := s.digits * 10 ^ s.exponent

/-- The binary logarithm of a magnitude is that of a float. -/
theorem log2Ratio_ratio_bounds {bits : Nat} (hb : d.Encodes bits) (hm : 0 < d.mantissa) :
    0 < d.ratio.1 ∧ -1074 ≤ log2Ratio d.ratio.1 d.ratio.2 ∧ log2Ratio d.ratio.1 d.ratio.2 ≤ 1023 := by
  have hratio := d.ratio_eq
  have hden := d.ratio_pos
  have hmq : (1 : ℚ) ≤ d.mantissa := by exact_mod_cast hm
  have hvalue : 0 < d.value := by
    unfold Dyadic.value
    positivity
  have hnum : 0 < d.ratio.1 := by
    by_contra hzero
    rw [show d.ratio.1 = 0 by omega, Nat.cast_zero, zero_div] at hratio
    exact absurd hratio hvalue.ne
  have hlow : -1074 ≤ log2Ratio d.ratio.1 d.ratio.2 := by
    rw [le_log2Ratio_iff hnum hden, hratio]
    calc (2 : ℚ) ^ (-1074 : Int) ≤ 2 ^ d.exponent := zpow_le_zpow_right₀ one_le_two hb.least_le
      _ ≤ d.mantissa * 2 ^ d.exponent := le_mul_of_one_le_left (by positivity) hmq
  have hhigh : ¬ 1024 ≤ log2Ratio d.ratio.1 d.ratio.2 := by
    rw [le_log2Ratio_iff hnum hden, hratio, not_le]
    exact hb.mul_lt (by linarith [hb.mantissa_add_one_le])
  exact ⟨hnum, hlow, by omega⟩

/-- **The shortest decimal of a magnitude rounds to it.** -/
theorem attracts_shortest {bits : Nat} (hb : d.Encodes bits) (hm : 0 < d.mantissa) : d.Attracts (shortest d).value := by
  obtain ⟨hnum, hlow, hhigh⟩ := log2Ratio_ratio_bounds hb hm
  have hten := log10Ratio_le hnum d.ratio_pos hlow hhigh
  rw [d.ratio_eq] at hten
  unfold shortest
  dsimp only
  generalize log10Ratio d.ratio.1 d.ratio.2 = e at hten ⊢
  have hlast : gridPoint? d (e - (16 : Nat)) ≠ none := by
    refine gridPoint?_ne_none hb hm ?_
    rw [← zpow_natCast (10 : ℚ) 16, ← zpow_add₀ (by norm_num : (10 : ℚ) ≠ 0), Int.sub_add_cancel]
    exact hten
  have hfound : ∀ s, (List.range 17).findSome? (fun (n : Nat) =>
      (gridPoint? d (e - n)).map fun k => Scaled.mk k (e - n)) = some s → d.Attracts s.value := by
    intro s hs
    obtain ⟨n, -, hn⟩ := List.exists_of_findSome?_eq_some hs
    obtain ⟨k, hk, rfl⟩ := Option.map_eq_some_iff.1 hn
    exact attracts_of_gridPoint? hm hk
  split
  · rename_i q hs
    -- ten steps are one step of the next grid
    have hvalue : (Scaled.mk 1 (q + 1)).value = (Scaled.mk 10 q).value := by
      simp only [Scaled.value]
      rw [zpow_add₀ (by norm_num : (10 : ℚ) ≠ 0)]
      norm_num
      ring
    rw [hvalue]
    exact hfound _ hs
  · rename_i s _ hs
    exact hfound s hs
  · rename_i hnone
    have := List.findSome?_eq_none_iff.1 hnone 16 (by decide)
    exact absurd (Option.map_eq_none_iff.1 this) hlast

end Number
end PushMachine
