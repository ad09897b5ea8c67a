import Mathlib.Algebra.Order.Field.Power
import Mathlib.Data.Rat.Cast.Order
import Mathlib.Tactic.FieldSimp
import Mathlib.Tactic.Linarith
import Mathlib.Tactic.NormNum
import Mathlib.Tactic.Positivity
import Mathlib.Tactic.Ring
import PushMachine.Number.Shortest
/-!
# What rounds to a float

The exact arithmetic on numerators and denominators is about rational numbers.  A magnitude attracts the rationals around
it, up to the midpoints to its neighbours (`Dyadic.Attracts`), and rounding a rational gives the magnitude that attracts
it (`nearestBits_of_attracts`).
-/
namespace PushMachine
namespace Number

/-! ## Fractions -/

theorem cast_pow_toNat (base : Nat) {e : Int} (h : 0 ≤ e) : ((Nat.pow base e.toNat : Nat) : ℚ) = base ^ e := by
  lift e to Nat using h
  simp

/-- Numerator and denominator of `num / den / base ^ e`. -/
def scaleDownBy (base num den : Nat) (e : Int) : Nat × Nat :=
  if 0 ≤ e then (num, den * Nat.pow base e.toNat) else (num * Nat.pow base (-e).toNat, den)

theorem scaleDown_eq_scaleDownBy : scaleDown = scaleDownBy 2 := rfl

theorem scaleDownTen_eq_scaleDownBy : scaleDownTen = scaleDownBy 10 := rfl

theorem scaleDownBy_eq (base num den : Nat) (e : Int) :
    ((scaleDownBy base num den e).1 : ℚ) / (scaleDownBy base num den e).2 = num / den / base ^ e := by
  unfold scaleDownBy
  split
  · rename_i he
    rw [Nat.cast_mul, cast_pow_toNat base he, div_div]
  · rename_i he
    rw [Nat.cast_mul, cast_pow_toNat base (by omega), zpow_neg, div_right_comm, ← div_eq_mul_inv]

theorem scaleDownBy_pos {base den : Nat} (hb : 0 < base) (num : Nat) (hd : 0 < den) (e : Int) :
    0 < (scaleDownBy base num den e).2 := by
  unfold scaleDownBy
  split
  · exact Nat.mul_pos hd (Nat.pow_pos hb)
  · exact hd

/-- The scaled fraction is one or more exactly if the power is not above the fraction. -/
theorem scaleDownBy_le_iff {base den : Nat} (hb : 0 < base) (num : Nat) (hd : 0 < den) (e : Int) :
    (scaleDownBy base num den e).2 ≤ (scaleDownBy base num den e).1 ↔ (base : ℚ) ^ e ≤ num / den := by
  have hbase : (0 : ℚ) < base := by exact_mod_cast hb
  have hpos : (0 : ℚ) < (scaleDownBy base num den e).2 := by exact_mod_cast scaleDownBy_pos hb num hd e
  rw [← one_le_div₀ (by positivity : (0 : ℚ) < base ^ e), ← scaleDownBy_eq, one_le_div₀ hpos, Nat.cast_le]

theorem scaleDown_eq (num den : Nat) (e : Int) :
    ((scaleDown num den e).1 : ℚ) / (scaleDown num den e).2 = num / den / 2 ^ e := by
  rw [scaleDown_eq_scaleDownBy]
  exact_mod_cast scaleDownBy_eq 2 num den e

theorem scaleDown_pos (num : Nat) {den : Nat} (hd : 0 < den) (e : Int) : 0 < (scaleDown num den e).2 :=
  scaleDownBy_pos (by decide) num hd e

/-- The binary logarithm of a fraction. -/
theorem log2Ratio_spec {num den : Nat} (hn : 0 < num) (hd : 0 < den) :
    (2 : ℚ) ^ log2Ratio num den ≤ num / den ∧ (num / den : ℚ) < 2 ^ (log2Ratio num den + 1) := by
  have hdq : (0 : ℚ) < den := by exact_mod_cast hd
  -- from the logarithms of both numbers the result is known up to one
  have hnum : (2 : ℚ) ^ (num.log2 : Int) ≤ num ∧ (num : ℚ) < 2 ^ ((num.log2 : Int) + 1) := by
    constructor
    · exact_mod_cast Nat.log2_self_le hn.ne'
    · exact_mod_cast Nat.lt_log2_self (n := num)
  have hden : (2 : ℚ) ^ (den.log2 : Int) ≤ den ∧ (den : ℚ) < 2 ^ ((den.log2 : Int) + 1) := by
    constructor
    · exact_mod_cast Nat.log2_self_le hd.ne'
    · exact_mod_cast Nat.lt_log2_self (n := den)
  set g : Int := (num.log2 : Int) - den.log2 with hg
  have hhigh : (num / den : ℚ) < 2 ^ (g + 1) := by
    rw [div_lt_iff₀ hdq]
    calc (num : ℚ) < 2 ^ ((num.log2 : Int) + 1) := hnum.2
      _ = 2 ^ (g + 1) * 2 ^ (den.log2 : Int) := by rw [← zpow_add₀ two_ne_zero]; congr 1; omega
      _ ≤ 2 ^ (g + 1) * den := by gcongr; exact hden.1
  have hlow : (2 : ℚ) ^ (g - 1) < num / den := by
    rw [lt_div_iff₀ hdq]
    calc (2 : ℚ) ^ (g - 1) * den < 2 ^ (g - 1) * 2 ^ ((den.log2 : Int) + 1) := by gcongr; exact hden.2
      _ = 2 ^ (num.log2 : Int) := by rw [← zpow_add₀ two_ne_zero]; congr 1; omega
      _ ≤ num := hnum.1
  have hreached : (scaleDown num den g).2 ≤ (scaleDown num den g).1 ↔ (2 : ℚ) ^ g ≤ num / den := by
    rw [scaleDown_eq_scaleDownBy]
    exact_mod_cast scaleDownBy_le_iff (by decide : 0 < 2) num hd g
  unfold log2Ratio
  dsimp only
  rw [← hg]
  split
  · rename_i h
    exact ⟨hreached.1 h, hhigh⟩
  · rename_i h
    rw [hreached, not_le] at h
    exact ⟨hlow.le, by rwa [sub_add_cancel]⟩

theorem le_log2Ratio_iff {num den : Nat} (hn : 0 < num) (hd : 0 < den) {k : Int} :
    k ≤ log2Ratio num den ↔ (2 : ℚ) ^ k ≤ num / den := by
  obtain ⟨hlow, hhigh⟩ := log2Ratio_spec hn hd
  constructor
  · intro h
    exact (zpow_le_zpow_right₀ one_le_two h).trans hlow
  · intro h
    have hlt := (zpow_lt_zpow_iff_right₀ (one_lt_two : (1 : ℚ) < 2)).1 (h.trans_lt hhigh)
    omega

/-- A quotient within half a unit of an integer is rounded to it, at the half if the integer is even. -/
theorem roundDiv_eq_of_le {num den k : Nat} (hd : 0 < den) (hlow : 2 * k * den ≤ 2 * num + den)
    (hhigh : 2 * num ≤ 2 * k * den + den)
    (hodd : k % 2 = 1 → 2 * k * den < 2 * num + den ∧ 2 * num < 2 * k * den + den) : roundDiv num den = k := by
  have hdiv := Nat.div_add_mod num den
  have hmod := Nat.mod_lt num hd
  unfold roundDiv
  dsimp only
  generalize num / den = q at hdiv ⊢
  generalize num % den = r at hdiv hmod ⊢
  subst hdiv
  have hle : q ≤ k := by
    by_contra h
    have : (k + 1) * den ≤ q * den := Nat.mul_le_mul_right _ (by omega)
    nlinarith
  have hge : k ≤ q + 1 := by
    by_contra h
    have : (q + 2) * den ≤ k * den := Nat.mul_le_mul_right _ (by omega)
    nlinarith
  have hcases : k = q ∨ k = q + 1 := by omega
  simp only [Bool.or_eq_true, Bool.and_eq_true, decide_eq_true_eq, beq_iff_eq]
  rcases hcases with rfl | rfl
  · have hr : 2 * r ≤ den := by linarith
    by_cases hk : k % 2 = 1
    · have hlt : 2 * r < den := by linarith [(hodd hk).2]
      rw [if_pos (.inl hlt)]
    · rw [if_pos (by omega)]
  · have hr : den ≤ 2 * r := by linarith
    rw [if_neg]
    rintro (h | ⟨h, heven⟩)
    · omega
    · linarith [(hodd (by omega)).1]

theorem roundDiv_eq {num den k : Nat} (hd : 0 < den) (hlow : (k : ℚ) - 1 / 2 ≤ num / den)
    (hhigh : (num / den : ℚ) ≤ k + 1 / 2)
    (hodd : k % 2 = 1 → (k : ℚ) - 1 / 2 < num / den ∧ (num / den : ℚ) < k + 1 / 2) : roundDiv num den = k := by
  have hdq : (0 : ℚ) < den := by exact_mod_cast hd
  apply roundDiv_eq_of_le hd
  · rw [le_div_iff₀ hdq] at hlow
    have : (2 * k * den : ℚ) ≤ 2 * num + den := by linarith
    exact_mod_cast this
  · rw [div_le_iff₀ hdq] at hhigh
    have : (2 * num : ℚ) ≤ 2 * k * den + den := by linarith
    exact_mod_cast this
  · intro hk
    obtain ⟨h₁, h₂⟩ := hodd hk
    rw [lt_div_iff₀ hdq] at h₁
    rw [div_lt_iff₀ hdq] at h₂
    have h₁ : (2 * k * den : ℚ) < 2 * num + den := by linarith
    have h₂ : (2 * num : ℚ) < 2 * k * den + den := by linarith
    exact ⟨by exact_mod_cast h₁, by exact_mod_cast h₂⟩

/-! ## Magnitudes -/

def Dyadic.value (d : Dyadic) : ℚ := d.mantissa * 2 ^ d.exponent

/-- What the magnitude bits of a finite float say. -/
structure Dyadic.Encodes (d : Dyadic) (bits : Nat) : Prop where
  bits_eq     : bits = (d.exponent - leastExponent).toNat * hiddenBit + d.mantissa
  least_le    : leastExponent ≤ d.exponent
  exponent_le : d.exponent ≤ 971
  mantissa_lt : d.mantissa < 2 * hiddenBit
  normal      : leastExponent < d.exponent → hiddenBit ≤ d.mantissa

theorem Dyadic.encodes_ofBits {bits : Nat} (h : bits < infinityBits) : (ofBits bits).Encodes bits := by
  have hdiv := Nat.div_add_mod bits hiddenBit
  have hmod := Nat.mod_lt bits (show 0 < hiddenBit by decide)
  have hlt : bits / hiddenBit < 2047 := Nat.div_lt_of_lt_mul (by rw [Nat.mul_comm]; exact h)
  unfold ofBits
  generalize bits / hiddenBit = q at hdiv hlt ⊢
  generalize bits % hiddenBit = r at hdiv hmod ⊢
  split
  · rename_i h0
    subst h0
    refine ⟨?_, le_refl _, ?_, ?_, fun h => absurd h (lt_irrefl _)⟩
    · simp
    · simp [leastExponent]
    · dsimp only
      omega
  · rename_i h0
    obtain ⟨q, rfl⟩ : ∃ p, q = p + 1 := ⟨q - 1, by omega⟩
    refine ⟨?_, ?_, ?_, ?_, fun _ => ?_⟩
    · have hexp : (((q + 1 : Nat) : Int) - 1 + leastExponent - leastExponent).toNat = q := by omega
      dsimp only
      rw [hexp]
      linarith
    all_goals
      simp only [leastExponent]
      omega

theorem Dyadic.Encodes.mantissa_pos {d : Dyadic} {bits : Nat} (h : d.Encodes bits) (h0 : 0 < bits) : 0 < d.mantissa := by
  by_cases hnormal : leastExponent < d.exponent
  · exact Nat.lt_of_lt_of_le (by decide) (h.normal hnormal)
  · have hbits := h.bits_eq
    have hleast := h.least_le
    rw [show (d.exponent - leastExponent).toNat = 0 by omega, Nat.zero_mul, Nat.zero_add] at hbits
    omega

/-- A mantissa has 53 bits at most. -/
theorem Dyadic.Encodes.mantissa_add_one_le {d : Dyadic} {bits : Nat} (h : d.Encodes bits) :
    (d.mantissa : ℚ) + 1 ≤ 2 ^ (53 : Int) := by
  have hlt := h.mantissa_lt
  rw [hiddenBit] at hlt
  exact_mod_cast (by omega : d.mantissa + 1 ≤ 2 ^ 53)

/-- So in the last place of a finite float they do not reach infinity. -/
theorem Dyadic.Encodes.mul_lt {d : Dyadic} {bits : Nat} (h : d.Encodes bits) {x : ℚ} (hx : x < 2 ^ (53 : Int)) :
    x * 2 ^ d.exponent < 2 ^ (1024 : Int) :=
  calc x * 2 ^ d.exponent < 2 ^ (53 : Int) * 2 ^ d.exponent := by gcongr
    _ = 2 ^ (53 + d.exponent) := (zpow_add₀ two_ne_zero _ _).symm
    _ ≤ 2 ^ (1024 : Int) := zpow_le_zpow_right₀ one_le_two (by have := h.exponent_le; omega)

/-- **The rationals that an interval holds**, in quarters. -/
def Interval.Contains (i : Interval) (x : ℚ) : Prop :=
  if i.closed then i.low ≤ x ∧ x ≤ i.high else i.low < x ∧ x < i.high

/-- **The rationals that round to a magnitude.** -/
def Dyadic.Attracts (d : Dyadic) (r : ℚ) : Prop := (Interval.around d).Contains (r / 2 ^ (d.exponent - 2))

namespace Dyadic

variable {d : Dyadic} {r : ℚ}

theorem quarters (r : ℚ) (q : Int) : r / 2 ^ (q - 2) = 4 * (r / 2 ^ q) := by
  rw [zpow_sub₀ two_ne_zero]
  field_simp
  norm_num

/-- How far below a mantissa the rationals are that round to it, in quarters. -/
def reach (d : Dyadic) : Nat := if d.mantissa = hiddenBit ∧ leastExponent < d.exponent then 1 else 2

theorem reach_le (d : Dyadic) : d.reach ≤ 2 := by
  unfold reach
  split <;> decide

theorem reach_pos (d : Dyadic) : 0 < d.reach := by
  unfold reach
  split <;> decide

theorem low_around (d : Dyadic) : (Interval.around d).low = 4 * d.mantissa - d.reach := rfl

theorem high_around (d : Dyadic) : (Interval.around d).high = 4 * d.mantissa + 2 := rfl

/-- In units of the last place: what is attracted lies between the midpoints, which belong to even mantissas only. -/
theorem attracts_iff (hm : 0 < d.mantissa) :
    d.Attracts r ↔
      ((d.mantissa : ℚ) - d.reach / 4 < r / 2 ^ d.exponent ∧ r / 2 ^ d.exponent < d.mantissa + 1 / 2) ∨
      (d.mantissa % 2 = 0 ∧ (d.mantissa : ℚ) - d.reach / 4 ≤ r / 2 ^ d.exponent ∧
        r / 2 ^ d.exponent ≤ d.mantissa + 1 / 2) := by
  have hlow : (((Interval.around d).low : Nat) : ℚ) = 4 * (d.mantissa - d.reach / 4) := by
    have hreach := d.reach_le
    rw [low_around, Nat.cast_sub (by omega)]
    push_cast
    ring
  have hhigh : (((Interval.around d).high : Nat) : ℚ) = 4 * (d.mantissa + 1 / 2) := by
    rw [high_around]
    push_cast
    ring
  have hclosed : (Interval.around d).closed = true ↔ d.mantissa % 2 = 0 := beq_iff_eq
  have hfour : (0 : ℚ) < 4 := by norm_num
  unfold Attracts Interval.Contains
  rw [quarters, hlow, hhigh]
  split
  · rename_i hc
    rw [mul_le_mul_iff_right₀ hfour, mul_le_mul_iff_right₀ hfour]
    refine ⟨fun h => .inr ⟨hclosed.1 hc, h⟩, ?_⟩
    rintro (h | h)
    · exact ⟨h.1.le, h.2.le⟩
    · exact h.2
  · rename_i hc
    rw [mul_lt_mul_iff_right₀ hfour, mul_lt_mul_iff_right₀ hfour]
    refine ⟨.inl, ?_⟩
    rintro (h | h)
    · exact h
    · exact absurd (hclosed.2 h.1) hc

/-- What is attracted is at most half a unit away, and at the half only from an even mantissa. -/
theorem Attracts.bounds (h : d.Attracts r) (hm : 0 < d.mantissa) :
    (d.mantissa : ℚ) - 1 / 2 ≤ r / 2 ^ d.exponent ∧ r / 2 ^ d.exponent ≤ d.mantissa + 1 / 2 ∧
      (d.mantissa % 2 = 1 → (d.mantissa : ℚ) - 1 / 2 < r / 2 ^ d.exponent ∧ r / 2 ^ d.exponent < d.mantissa + 1 / 2) := by
  have hreach : (d.reach : ℚ) ≤ 2 := by exact_mod_cast d.reach_le
  rcases (attracts_iff hm).1 h with ⟨h₁, h₂⟩ | ⟨heven, h₁, h₂⟩
  · exact ⟨by linarith, h₂.le, fun _ => ⟨by linarith, h₂⟩⟩
  · exact ⟨by linarith, h₂, fun hodd => by omega⟩

/-- Below a power of two it is at most a quarter away. -/
theorem Attracts.bound_of_power (h : d.Attracts r) (hm : d.mantissa = hiddenBit) (he : leastExponent < d.exponent) :
    (d.mantissa : ℚ) - 1 / 4 ≤ r / 2 ^ d.exponent := by
  have hreach : d.reach = 1 := if_pos ⟨hm, he⟩
  have hpos : 0 < d.mantissa := by
    rw [hm]
    decide
  rcases (attracts_iff hpos).1 h with ⟨h₁, -⟩ | ⟨-, h₁, -⟩ <;>
    (rw [hreach, Nat.cast_one] at h₁; linarith)

theorem Attracts.pos (h : d.Attracts r) (hm : 0 < d.mantissa) : 0 < r := by
  have hm' : (1 : ℚ) ≤ d.mantissa := by exact_mod_cast hm
  have hx : 0 < r / 2 ^ d.exponent := by linarith [(h.bounds hm).1]
  exact (div_pos_iff_of_pos_right (by positivity)).1 hx

end Dyadic

/-! ## Rounding to nearest -/

theorem two_zpow_add_le_iff {r : ℚ} {e k : Int} : (2 : ℚ) ^ (e + k) ≤ r ↔ 2 ^ k ≤ r / 2 ^ e := by
  rw [le_div_iff₀ (by positivity), add_comm, zpow_add₀ two_ne_zero]

/-- The place at which a rational is rounded is the last place of the magnitude that attracts it, or the one below if the
rational lies just below a power of two. -/
theorem exponent_of_attracts {num den bits : Nat} {d : Dyadic} (hn : 0 < num) (hd : 0 < den) (hb : d.Encodes bits)
    (hm : 0 < d.mantissa) (h : d.Attracts (num / den)) :
    max leastExponent (log2Ratio num den - 52) = d.exponent ∨
      (max leastExponent (log2Ratio num den - 52) = d.exponent - 1 ∧ d.mantissa = hiddenBit ∧
        leastExponent < d.exponent ∧ (num / den : ℚ) / 2 ^ d.exponent < d.mantissa) := by
  obtain ⟨hmin, hmax, -⟩ := h.bounds hm
  have hleast := hb.least_le
  -- in units of the last place a logarithm is at most 52
  have hunits : ∀ k : Int, d.exponent + k ≤ log2Ratio num den ↔ (2 : ℚ) ^ k ≤ num / den / 2 ^ d.exponent := fun k =>
    (le_log2Ratio_iff hn hd).trans two_zpow_add_le_iff
  have hhigh : ¬ d.exponent + 53 ≤ log2Ratio num den := by
    rw [hunits, not_le]
    linarith [hb.mantissa_add_one_le]
  by_cases hnormal : leastExponent < d.exponent
  · have hfull := hb.normal hnormal
    by_cases hreached : d.exponent + 52 ≤ log2Ratio num den
    · left
      omega
    · right
      have hbelow := hreached
      rw [hunits, not_le, show (2 : ℚ) ^ (52 : Int) = hiddenBit by norm_num [hiddenBit]] at hbelow
      have hmant : d.mantissa = hiddenBit := by
        have hlt : (d.mantissa : ℚ) < hiddenBit + 1 := by linarith
        have hlt : d.mantissa < hiddenBit + 1 := by exact_mod_cast hlt
        omega
      rw [hmant] at hmin
      have hlow : d.exponent + 51 ≤ log2Ratio num den := by
        rw [hunits]
        refine le_trans ?_ hmin
        norm_num [hiddenBit]
      refine ⟨by omega, hmant, hnormal, ?_⟩
      rw [hmant]
      exact hbelow
  · left
    omega

/-- **Rounding gives the magnitude that attracts the rational.** -/
theorem nearestBits_of_attracts {num den bits : Nat} (hd : 0 < den) (h0 : 0 < bits) (hb : bits < infinityBits)
    (h : (Dyadic.ofBits bits).Attracts (num / den)) : nearestBits num den = bits := by
  have henc := Dyadic.encodes_ofBits hb
  generalize Dyadic.ofBits bits = d at h henc
  have hm := henc.mantissa_pos h0
  have hn : 0 < num := by
    have hpos := h.pos hm
    by_contra hzero
    rw [show num = 0 by omega, Nat.cast_zero, zero_div] at hpos
    exact lt_irrefl _ hpos
  obtain ⟨hmin, hmax, hodd⟩ := h.bounds hm
  have hbits := henc.bits_eq
  unfold nearestBits
  rw [if_neg hn.ne']
  dsimp only
  rcases exponent_of_attracts hn hd henc hm h with hexp | ⟨hexp, hmant, hnormal, hbelow⟩
  · rw [hexp]
    have hround : roundDiv (scaleDown num den d.exponent).1 (scaleDown num den d.exponent).2 = d.mantissa := by
      apply roundDiv_eq (scaleDown_pos _ hd _) <;> rw [scaleDown_eq]
      · exact hmin
      · exact hmax
      · exact hodd
    rw [hround, ← hbits]
    exact Nat.min_eq_right hb.le
  · rw [hexp]
    -- at the place below, the power of two is twice as large a number of units
    have hunit : (num / den : ℚ) / 2 ^ (d.exponent - 1) = 2 * (num / den / 2 ^ d.exponent) := by
      rw [zpow_sub₀ two_ne_zero]
      field_simp
    have hquarter := h.bound_of_power hmant hnormal
    have hround : roundDiv (scaleDown num den (d.exponent - 1)).1 (scaleDown num den (d.exponent - 1)).2
        = 2 * d.mantissa := by
      apply roundDiv_eq (scaleDown_pos _ hd _) <;> rw [scaleDown_eq, hunit] <;> push_cast
      · linarith
      · linarith
      · omega
    rw [hround]
    have hsum : (d.exponent - 1 - leastExponent).toNat * hiddenBit + 2 * d.mantissa = bits := by
      obtain ⟨e, he⟩ : ∃ e : Nat, d.exponent - leastExponent = e + 1 := ⟨(d.exponent - leastExponent - 1).toNat, by omega⟩
      rw [he] at hbits
      rw [show (d.exponent - 1 - leastExponent).toNat = e by omega, hbits, hmant,
        show ((e : Int) + 1).toNat = e + 1 by omega]
      ring
    rw [hsum]
    exact Nat.min_eq_right hb.le

end Number
end PushMachine
