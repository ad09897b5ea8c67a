import Mathlib.Tactic.Linarith
import Mathlib.Tactic.Ring
import PushMachine.Number.Binary
/-!
# Integers beyond every float

The largest finite float is `2 ^ 1024 - 2 ^ 971`.  An integer is rounded to it as long as it is nearer to it than to
`2 ^ 1024`, so an integer has no float from `2 ^ 1024 - 2 ^ 970` on (`floatOfInt?_eq_none_iff`).
-/
namespace PushMachine
namespace Number

/-! ## Rounding -/

theorem roundDiv_le (num den : Nat) : roundDiv num den ≤ num / den + 1 := by
  unfold roundDiv
  dsimp only
  split <;> omega

theorem le_roundDiv (num den : Nat) : num / den ≤ roundDiv num den := by
  unfold roundDiv
  dsimp only
  split <;> omega

/-- A quotient is rounded up past an odd number from the half on. -/
theorem lt_roundDiv_iff {c half num : Nat} (hc : c % 2 = 1) (hpos : 0 < half) :
    c < roundDiv num (2 * half) ↔ (2 * c + 1) * half ≤ num := by
  have hdiv := Nat.div_add_mod num (2 * half)
  have hmod := Nat.mod_lt num (show 0 < 2 * half by omega)
  unfold roundDiv
  dsimp only
  generalize num / (2 * half) = q at hdiv ⊢
  generalize num % (2 * half) = r at hdiv hmod ⊢
  rcases Nat.lt_trichotomy q c with hq | rfl | hq
  · have hle : 2 * half * (q + 1) ≤ 2 * half * c := Nat.mul_le_mul_left _ hq
    constructor
    · intro h
      split at h <;> omega
    · intro h
      nlinarith
  · by_cases hr : half ≤ r
    · have hup : ¬ ((decide (2 * r < 2 * half) || 2 * r == 2 * half && q % 2 == 0) = true) := by
        simp only [Bool.or_eq_true, Bool.and_eq_true, decide_eq_true_eq, beq_iff_eq]
        omega
      rw [if_neg hup]
      exact ⟨fun _ => by nlinarith, fun _ => Nat.lt_succ_self q⟩
    · have hdown : (decide (2 * r < 2 * half) || 2 * r == 2 * half && q % 2 == 0) = true := by
        simp only [Bool.or_eq_true, decide_eq_true_eq]
        omega
      rw [if_pos hdown]
      exact ⟨fun h => absurd h (Nat.lt_irrefl q), fun h => by nlinarith⟩
  · have hle : 2 * half * (c + 1) ≤ 2 * half * q := Nat.mul_le_mul_left _ hq
    refine ⟨fun _ => by nlinarith, fun _ => ?_⟩
    split <;> omega

/-! ## The bits of an integer -/

theorem log2Ratio_one {n : Nat} (hn : n ≠ 0) : log2Ratio n 1 = n.log2 := by
  have hlog : (Nat.log2 1 : Int) = 0 := by decide
  have hle : 1 * Nat.pow 2 n.log2 ≤ n := by
    rw [Nat.one_mul]
    exact Nat.log2_self_le hn
  unfold log2Ratio scaleDown
  simp only [hlog, Int.sub_zero, Int.natCast_nonneg, if_true, Int.toNat_natCast, if_pos hle]

/-- An integer of more than 52 bits is rounded at its leading 53 bits. -/
theorem nearestBits_of_le_log2 {n : Nat} (hn : n ≠ 0) (h : 52 ≤ n.log2) :
    nearestBits n 1 = min infinityBits ((n.log2 + 1022) * hiddenBit + roundDiv n (2 ^ (n.log2 - 52))) := by
  have hexp : max leastExponent (log2Ratio n 1 - 52) = ((n.log2 - 52 : Nat) : Int) := by
    rw [log2Ratio_one hn, leastExponent]
    omega
  have hunit : ((n.log2 - 52 : Nat) - leastExponent : Int).toNat = n.log2 + 1022 := by
    rw [leastExponent]
    omega
  unfold nearestBits scaleDown
  simp only [hexp, hunit, if_neg hn, Int.natCast_nonneg, if_true, Int.toNat_natCast, Nat.one_mul]
  rfl

theorem nearestBits_of_log2_lt {n : Nat} (h : n.log2 < 52) : nearestBits n 1 < infinityBits := by
  unfold nearestBits
  by_cases hn : n = 0
  · rw [if_pos hn]
    decide
  have hexp : max leastExponent (log2Ratio n 1 - 52) = -((52 - n.log2 : Nat) : Int) := by
    rw [log2Ratio_one hn, leastExponent]
    omega
  have hunit : (-((52 - n.log2 : Nat) : Int) - leastExponent).toNat ≤ 1073 := by
    rw [leastExponent]
    omega
  have hlt : n * 2 ^ (52 - n.log2) < 2 ^ 53 := by
    calc n * 2 ^ (52 - n.log2) < 2 ^ (n.log2 + 1) * 2 ^ (52 - n.log2) :=
          Nat.mul_lt_mul_of_pos_right Nat.lt_log2_self (Nat.two_pow_pos _)
      _ = 2 ^ 53 := by rw [← Nat.pow_add]; congr 1; omega
  have hneg : ¬ (0 : Int) ≤ -((52 - n.log2 : Nat) : Int) := by omega
  have hround := roundDiv_le (n * Nat.pow 2 (52 - n.log2)) 1
  rw [Nat.div_one] at hround
  simp only [hexp, if_neg hn, scaleDown, if_neg hneg, Int.neg_neg, Int.toNat_natCast]
  rw [infinityBits, hiddenBit]
  generalize roundDiv (n * Nat.pow 2 (52 - n.log2)) 1 = r at hround ⊢
  generalize (-((52 - n.log2 : Nat) : Int) - leastExponent).toNat = e at hunit ⊢
  have hlt : n * Nat.pow 2 (52 - n.log2) < 2 ^ 53 := hlt
  omega

/-! ## The largest floats -/

/-- The leading 53 bits of an integer. -/
theorem div_two_pow_bounds {n : Nat} (hn : n ≠ 0) (h : 52 ≤ n.log2) :
    2 ^ 52 ≤ n / 2 ^ (n.log2 - 52) ∧ n / 2 ^ (n.log2 - 52) < 2 ^ 53 := by
  constructor
  · rw [Nat.le_div_iff_mul_le (Nat.two_pow_pos _), ← Nat.pow_add, show 52 + (n.log2 - 52) = n.log2 by omega]
    exact Nat.log2_self_le hn
  · rw [Nat.div_lt_iff_lt_mul (Nat.two_pow_pos _), ← Nat.pow_add, show 53 + (n.log2 - 52) = n.log2 + 1 by omega]
    exact Nat.lt_log2_self

/-- Below `2 ^ 1023` rounding does not reach infinity. -/
theorem nearestBits_ne_infinityBits {n : Nat} (h : n.log2 < 1023) : nearestBits n 1 ≠ infinityBits := by
  by_cases hlow : n.log2 < 52
  · exact Nat.ne_of_lt (nearestBits_of_log2_lt hlow)
  have hn : n ≠ 0 := fun h0 => hlow (by rw [h0]; decide)
  have hround := roundDiv_le n (2 ^ (n.log2 - 52))
  have hlead := (div_two_pow_bounds hn (by omega)).2
  rw [nearestBits_of_le_log2 hn (by omega), infinityBits, hiddenBit]
  generalize n / 2 ^ (n.log2 - 52) = q at hround hlead
  generalize roundDiv n (2 ^ (n.log2 - 52)) = r at hround ⊢
  omega

/-- From `2 ^ 1024` on it always does. -/
theorem nearestBits_eq_infinityBits {n : Nat} (h : 1023 < n.log2) : nearestBits n 1 = infinityBits := by
  have hn : n ≠ 0 := fun h0 => by
    rw [h0] at h
    exact absurd h (by decide)
  have hround := le_roundDiv n (2 ^ (n.log2 - 52))
  have hlead := (div_two_pow_bounds hn (by omega)).1
  rw [nearestBits_of_le_log2 hn (by omega), infinityBits, hiddenBit]
  generalize n / 2 ^ (n.log2 - 52) = q at hround hlead
  generalize roundDiv n (2 ^ (n.log2 - 52)) = r at hround ⊢
  omega

-- with the exponents as variables, so that no power is evaluated
theorem two_pow_split {a b c : Nat} (h : a = b + c) : 2 ^ a = 2 ^ b * 2 ^ c := by rw [h, pow_add]

/-- In between, it does from half a unit below `2 ^ 1024` on. -/
theorem nearestBits_eq_infinityBits_iff_of_log2 {n : Nat} (h : n.log2 = 1023) :
    nearestBits n 1 = infinityBits ↔ (2 * (2 ^ 53 - 1) + 1) * 2 ^ 970 ≤ n := by
  have hn : n ≠ 0 := fun h0 => by
    rw [h0] at h
    exact absurd h (by decide)
  have hunit : 2 ^ (n.log2 - 52) = 2 * 2 ^ 970 := by
    rw [two_pow_split (b := 1) (c := 970) (by omega), pow_one]
  have hpos : 0 < 2 ^ 970 := pow_pos Nat.two_pos 970
  rw [nearestBits_of_le_log2 hn (by omega), hunit, h, infinityBits, hiddenBit]
  generalize 2 ^ 970 = half at hpos ⊢
  rw [← lt_roundDiv_iff (by decide) hpos]
  generalize roundDiv n (2 * half) = r
  omega

theorem nearestBits_eq_infinityBits_iff (n : Nat) : nearestBits n 1 = infinityBits ↔ 2 ^ 1024 - 2 ^ 970 ≤ n := by
  have h1024 : 2 ^ 1024 = 2 ^ 54 * 2 ^ 970 := two_pow_split rfl
  have h1023 : 2 ^ 1023 = 2 ^ 53 * 2 ^ 970 := two_pow_split rfl
  have hlog : n < 2 ^ (n.log2 + 1) := Nat.lt_log2_self
  rcases Nat.lt_trichotomy n.log2 1023 with hlt | heq | hgt
  · have hn : n < 2 ^ 1023 := Nat.lt_of_lt_of_le hlog (pow_le_pow_right₀ (by decide) hlt)
    refine ⟨fun h => absurd h (nearestBits_ne_infinityBits hlt), fun h => ?_⟩
    rw [h1024] at h
    rw [h1023] at hn
    generalize 2 ^ 970 = half at h hn
    omega
  · rw [nearestBits_eq_infinityBits_iff_of_log2 heq, h1024]
    generalize 2 ^ 970 = half
    omega
  · have hne : n ≠ 0 := fun h0 => by
      rw [h0] at hgt
      exact absurd hgt (by decide)
    have hself : 2 ^ n.log2 ≤ n := Nat.log2_self_le hne
    have hle : 2 ^ 1024 ≤ n := (pow_le_pow_right₀ (by decide) (show 1024 ≤ n.log2 from hgt)).trans hself
    exact ⟨fun _ => (Nat.sub_le _ _).trans hle, fun _ => nearestBits_eq_infinityBits hgt⟩

/-- **The integers that have no float.** -/
theorem floatOfInt?_eq_none_iff {n : Int} : floatOfInt? n = none ↔ 2 ^ 1024 - 2 ^ 970 ≤ n.natAbs := by
  rw [← nearestBits_eq_infinityBits_iff]
  unfold floatOfInt?
  dsimp only
  split <;> simp_all

end Number
end PushMachine
