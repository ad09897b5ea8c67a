import Mathlib.Data.List.TakeWhile
import PushMachine.Proofs.Literal
import PushMachine.Proofs.Shortest
/-!
# Reading the text of a float

Whatever the layout, the text of a decimal is read as that decimal (`readDecimal?_chars`).  A decimal that a magnitude
attracts is read as this magnitude (`toFloat_of_attracts`), and the decimal written for a magnitude is attracted by it.
So the text of a float is read as its sign and its magnitude (`readFloat?_floatText`).  It is a float and nothing else:
the text is never one of digits alone, and what is read as a float passes for no odd word (`classify_floatText`).
-/
namespace PushMachine
namespace Number

/-! ## Digits -/

theorem isDigit_of_mem_replicate {n : Nat} : ∀ c ∈ List.replicate n '0', c.isDigit = true := by
  intro c hc
  rw [List.eq_of_mem_replicate hc]
  decide

theorem digitsValue_append (as bs : List Char) :
    digitsValue (as ++ bs) = digitsValue as * 10 ^ bs.length + digitsValue bs := by
  unfold digitsValue
  rw [Nat.ofDigitChars_append, Nat.ofDigitChars_eq_ofDigitChars_zero]
  ring

theorem digitsValue_replicate_zero (n : Nat) : digitsValue (List.replicate n '0') = 0 := by
  induction n with
  | zero => rfl
  | succ n ih => rw [List.replicate_succ', digitsValue_append, ih]; rfl

/-- Zeros in front count for nothing. -/
theorem digitsValue_zeros (n : Nat) (cs : List Char) : digitsValue (List.replicate n '0' ++ cs) = digitsValue cs := by
  rw [digitsValue_append, digitsValue_replicate_zero, Nat.zero_mul, Nat.zero_add]

/-! ## Layouts -/

theorem readExponent?_exponentChars (e : Int) : readExponent? ('e' :: exponentChars e) = some e := by
  have hall : allDigits
      (List.replicate (2 - (Nat.toDigits 10 e.natAbs).length) '0' ++ Nat.toDigits 10 e.natAbs) = true :=
    allDigits_iff.2 ⟨List.append_ne_nil_of_right_ne_nil _ Nat.toDigits_ne_nil,
      List.forall_mem_append.2 ⟨isDigit_of_mem_replicate, isDigit_of_mem_toDigits⟩⟩
  rw [readExponent?, exponentChars]
  dsimp only
  by_cases he : e < 0
  · simp only [if_pos he, List.cons_append, cutSign, hall, digitsValue_zeros, digitsValue_toDigits, decide_true,
      Bool.true_or, Bool.and_true, if_true, Option.some.injEq]
    omega
  · simp only [if_neg he, List.cons_append, cutSign, hall, digitsValue_zeros, digitsValue_toDigits, decide_true,
      Bool.true_or, Bool.and_true, if_true, Bool.false_eq_true, if_false, Option.some.injEq]
    omega

section Cut

variable {whole fraction rest : List Char} {e : Int}

/-- An exponent begins with no digit, and with no point. -/
theorem cut_of_readExponent? (h : readExponent? rest = some e) :
    rest.takeWhile Char.isDigit = [] ∧ rest.dropWhile Char.isDigit = rest ∧ rest.head? ≠ some '.' := by
  cases rest with
  | nil => simp
  | cons c rest =>
    have hmark : c = 'e' ∨ c = 'E' := by
      by_contra hc
      rw [not_or] at hc
      simp [readExponent?, hc] at h
    rcases hmark with rfl | rfl <;> simp

theorem cutPoint_of_point (hw : ∀ c ∈ whole, c.isDigit = true) (hf : ∀ c ∈ fraction, c.isDigit = true)
    (he : readExponent? rest = some e) : cutPoint (whole ++ '.' :: (fraction ++ rest)) = (whole, fraction, rest) := by
  obtain ⟨htake, hdrop, -⟩ := cut_of_readExponent? he
  have hpoint : '.'.isDigit = false := by decide
  rw [cutPoint, List.dropWhile_append_of_pos hw, List.takeWhile_append_of_pos hw, List.dropWhile_cons,
    List.takeWhile_cons, hpoint]
  simp [List.dropWhile_append_of_pos hf, List.takeWhile_append_of_pos hf, htake, hdrop]

theorem cutPoint_of_whole (hw : ∀ c ∈ whole, c.isDigit = true) (he : readExponent? rest = some e) :
    cutPoint (whole ++ rest) = (whole, [], rest) := by
  obtain ⟨htake, hdrop, hpoint⟩ := cut_of_readExponent? he
  rw [cutPoint, List.dropWhile_append_of_pos hw, List.takeWhile_append_of_pos hw, htake, hdrop, List.append_nil]
  split
  · exact absurd rfl hpoint
  · rfl

theorem readDecimal?_of_point (hw : allDigits whole = true) (hf : ∀ c ∈ fraction, c.isDigit = true)
    (he : readExponent? rest = some e) (negative : Bool) :
    readDecimal? negative (whole ++ '.' :: (fraction ++ rest)) =
      some ⟨negative, digitsValue (whole ++ fraction), e - fraction.length⟩ := by
  obtain ⟨hne, hdigits⟩ := allDigits_iff.1 hw
  simp [readDecimal?, cutPoint_of_point hdigits hf he, hne, he]

theorem readDecimal?_of_whole (hw : allDigits whole = true) (he : readExponent? rest = some e) (negative : Bool) :
    readDecimal? negative (whole ++ rest) = some ⟨negative, digitsValue whole, e⟩ := by
  obtain ⟨hne, hdigits⟩ := allDigits_iff.1 hw
  simp [readDecimal?, cutPoint_of_whole hdigits he, hne, he]

end Cut

def Decimal.value (x : Decimal) : ℚ := x.digits * 10 ^ x.exponent

section Layout

variable {digits : List Char}

theorem readDecimal?_positional (h : allDigits digits = true) (exponent : Int) (negative : Bool) :
    ∃ x, readDecimal? negative (positional digits exponent) = some x ∧ x.negative = negative ∧
      x.value = digitsValue digits * 10 ^ exponent := by
  obtain ⟨hne, hdigits⟩ := allDigits_iff.1 h
  have hend : readExponent? [] = some 0 := rfl
  unfold positional
  dsimp only
  split
  · rename_i he
    have hwhole : allDigits (digits ++ List.replicate exponent.toNat '0') = true :=
      allDigits_iff.2 ⟨List.append_ne_nil_of_left_ne_nil hne _,
        List.forall_mem_append.2 ⟨hdigits, isDigit_of_mem_replicate⟩⟩
    have hzero : ∀ c ∈ ['0'], c.isDigit = true := List.forall_mem_singleton.2 (by decide)
    refine ⟨_, readDecimal?_of_point hwhole hzero hend negative, rfl, ?_⟩
    -- the zero after the point is one more place
    have hvalue : digitsValue (digits ++ List.replicate exponent.toNat '0' ++ ['0']) =
        digitsValue digits * Nat.pow 10 exponent.toNat * 10 := by
      rw [digitsValue_append, digitsValue_append, digitsValue_replicate_zero, List.length_replicate]
      rfl
    rw [Decimal.value, hvalue, Nat.cast_mul, Nat.cast_mul, cast_pow_toNat 10 he]
    norm_num
    ring
  · split
    · rename_i hneg hpos
      have hwhole : allDigits (digits.take (digits.length + exponent).toNat) = true := by
        refine allDigits_iff.2 ⟨?_, fun c hc => hdigits c (List.mem_of_mem_take hc)⟩
        rw [Ne, List.take_eq_nil_iff, not_or]
        exact ⟨by omega, hne⟩
      have hfraction : ∀ c ∈ digits.drop (digits.length + exponent).toNat, c.isDigit = true := fun c hc =>
        hdigits c (List.mem_of_mem_drop hc)
      have hread := readDecimal?_of_point hwhole hfraction hend negative
      rw [List.append_nil] at hread
      refine ⟨_, hread, rfl, ?_⟩
      rw [Decimal.value, List.take_append_drop, List.length_drop]
      congr 2
      dsimp only
      omega
    · rename_i hneg hpos
      have hfraction : ∀ c ∈ List.replicate (-(digits.length + exponent)).toNat '0' ++ digits, c.isDigit = true :=
        List.forall_mem_append.2 ⟨isDigit_of_mem_replicate, hdigits⟩
      have hread := readDecimal?_of_point (by decide : allDigits ['0'] = true) hfraction hend negative
      rw [List.append_nil] at hread
      refine ⟨_, hread, rfl, ?_⟩
      rw [Decimal.value, ← List.append_assoc, ← List.replicate_one, List.replicate_append_replicate, digitsValue_zeros,
        List.length_append, List.length_replicate]
      congr 2
      dsimp only
      omega

theorem readDecimal?_scientific (h : allDigits digits = true) (exponent : Int) (negative : Bool) :
    readDecimal? negative (scientific digits exponent) = some ⟨negative, digitsValue digits, exponent⟩ := by
  have hend := readExponent?_exponentChars (digits.length - 1 + exponent)
  obtain ⟨hne, hdigits⟩ := allDigits_iff.1 h
  unfold scientific
  dsimp only
  split
  · rename_i d c cs
    obtain ⟨hd, hds⟩ := List.forall_mem_cons.1 hdigits
    have hwhole : allDigits [d] = true := allDigits_iff.2 ⟨List.cons_ne_nil d [], List.forall_mem_singleton.2 hd⟩
    refine (readDecimal?_of_point hwhole hds hend negative).trans ?_
    simp
  · rename_i hshort
    refine (readDecimal?_of_whole h hend negative).trans ?_
    have hlength : digits.length = 1 := by
      match digits, hne, hshort with
      | [d], _, _ => rfl
      | d :: c :: cs, _, hshort => exact absurd rfl (hshort d c cs)
    simp [hlength]

end Layout

/-- **The text of a decimal is read as this decimal.** -/
theorem readDecimal?_chars (s : Scaled) (negative : Bool) :
    ∃ x, readDecimal? negative s.chars = some x ∧ x.negative = negative ∧ x.value = s.value := by
  have hall := allDigits_toDigits s.digits
  unfold Scaled.chars Scaled.value
  dsimp only
  split
  · obtain ⟨x, hread, hneg, hvalue⟩ := readDecimal?_positional hall s.exponent negative
    rw [digitsValue_toDigits] at hvalue
    exact ⟨x, hread, hneg, hvalue⟩
  · refine ⟨_, readDecimal?_scientific hall s.exponent negative, rfl, ?_⟩
    rw [digitsValue_toDigits, Decimal.value]

/-! ## Rounding -/

/-- What a magnitude attracts is neither beyond every float nor too small for all of them. -/
theorem Dyadic.Attracts.range {d : Dyadic} {bits : Nat} {r : ℚ} (h : d.Attracts r) (hb : d.Encodes bits)
    (hm : 0 < d.mantissa) : (2 : ℚ) ^ (-1075 : Int) ≤ r ∧ r < 2 ^ (1024 : Int) := by
  obtain ⟨hlow, hhigh, -⟩ := h.bounds hm
  have hpos : (0 : ℚ) < 2 ^ d.exponent := by positivity
  rw [le_div_iff₀ hpos] at hlow
  rw [div_le_iff₀ hpos] at hhigh
  constructor
  · have hhalf : (1 / 2 : ℚ) ≤ d.mantissa - 1 / 2 := by
      have : (1 : ℚ) ≤ d.mantissa := by exact_mod_cast hm
      linarith
    calc (2 : ℚ) ^ (-1075 : Int) = 1 / 2 * 2 ^ (-1074 : Int) := by
          rw [one_div, ← zpow_neg_one, ← zpow_add₀ two_ne_zero]
          rfl
      _ ≤ 1 / 2 * 2 ^ d.exponent := by gcongr; exacts [one_le_two, hb.least_le]
      _ ≤ (d.mantissa - 1 / 2) * 2 ^ d.exponent := by gcongr
      _ ≤ r := hlow
  · have hmant : (d.mantissa + 1 / 2 : ℚ) < 2 ^ (53 : Int) := by linarith [hb.mantissa_add_one_le]
    exact lt_of_le_of_lt hhigh (hb.mul_lt hmant)

/-- Ten is more than two to the power three. -/
theorem two_zpow_le_ten_zpow {e : Int} (h : 0 ≤ e) : (2 : ℚ) ^ (3 * e) ≤ 10 ^ e := by
  rw [zpow_mul]
  exact zpow_le_zpow_left₀ h (by norm_num) (by norm_num)

theorem Decimal.value_lt (x : Decimal) (he : x.exponent ≤ 0) :
    x.value < 2 ^ (x.digits.log2 + 1 + 3 * x.exponent) := by
  have hdigits : (x.digits : ℚ) < 2 ^ ((x.digits.log2 : Int) + 1) := by exact_mod_cast Nat.lt_log2_self (n := x.digits)
  have hten : (10 : ℚ) ^ x.exponent ≤ 2 ^ (3 * x.exponent) := by
    rw [← inv_le_inv₀ (by positivity) (by positivity), ← zpow_neg, ← zpow_neg, ← Int.mul_neg]
    exact two_zpow_le_ten_zpow (by omega)
  calc x.value ≤ x.digits * 2 ^ (3 * x.exponent) := by unfold value; gcongr
    _ < 2 ^ ((x.digits.log2 : Int) + 1) * 2 ^ (3 * x.exponent) := by gcongr
    _ = 2 ^ (x.digits.log2 + 1 + 3 * x.exponent) := (zpow_add₀ two_ne_zero _ _).symm

/-- **A decimal is read as the magnitude that attracts it.** -/
theorem Decimal.toFloat_of_attracts {x : Decimal} {bits : Nat} (h0 : 0 < bits) (hb : bits < infinityBits)
    (h : (Dyadic.ofBits bits).Attracts x.value) : x.toFloat = ofMagnitude x.negative bits := by
  have henc := Dyadic.encodes_ofBits hb
  have hm := henc.mantissa_pos h0
  obtain ⟨hlow, hhigh⟩ := h.range henc hm
  have hdigits : x.digits ≠ 0 := by
    intro hzero
    have hpos := h.pos hm
    rw [value, hzero, Nat.cast_zero, zero_mul] at hpos
    exact lt_irrefl _ hpos
  have hone : (1 : ℚ) ≤ x.digits := by exact_mod_cast Nat.pos_of_ne_zero hdigits
  have hlarge : ¬ 400 < x.exponent := by
    intro he
    refine absurd hhigh (not_lt.2 ?_)
    calc (2 : ℚ) ^ (1024 : Int) ≤ 2 ^ (3 * x.exponent) := zpow_le_zpow_right₀ one_le_two (by omega)
      _ ≤ 10 ^ x.exponent := two_zpow_le_ten_zpow (by omega)
      _ ≤ x.value := le_mul_of_one_le_left (by positivity) hone
  have hsmall : ¬ x.digits.log2 + 1 + 3 * x.exponent < -1100 := by
    intro he
    have hlt := lt_of_le_of_lt hlow (x.value_lt (by omega))
    have := (zpow_lt_zpow_iff_right₀ (one_lt_two : (1 : ℚ) < 2)).1 hlt
    omega
  unfold toFloat
  rw [if_neg hdigits, if_neg hlarge, if_neg hsmall]
  split
  · rename_i he
    rw [nearestBits_of_attracts Nat.one_pos h0 hb]
    rwa [Nat.cast_mul, cast_pow_toNat 10 he, Nat.cast_one, div_one]
  · rename_i he
    have hpow : 0 < Nat.pow 10 (-x.exponent).toNat := Nat.pow_pos (by decide)
    rw [nearestBits_of_attracts hpow h0 hb]
    rwa [cast_pow_toNat 10 (by omega), zpow_neg, div_inv_eq_mul]

/-! ## Texts -/

/-- What is read as a decimal begins with a digit or with a point. -/
theorem readDecimal?_eq_none {c : Char} (hd : c.isDigit = false) (hp : c ≠ '.') (negative : Bool) (cs : List Char) :
    readDecimal? negative (c :: cs) = none := by
  have hcut : cutPoint (c :: cs) = ([], [], c :: cs) := by
    rw [cutPoint, List.dropWhile_cons, List.takeWhile_cons, hd]
    simp [hp]
  simp [readDecimal?, hcut]

theorem cutSign_of_readDecimal? {negative : Bool} {cs : List Char} {x : Decimal}
    (h : readDecimal? negative cs = some x) : cutSign cs = (false, cs) := by
  unfold cutSign
  split
  · rw [readDecimal?_eq_none (by decide) (by decide)] at h
    cases h
  · rw [readDecimal?_eq_none (by decide) (by decide)] at h
    cases h
  · rfl

/-- The text of a number with a sign. -/
theorem cutSign_signed {cs : List Char} (h : cutSign cs = (false, cs)) (negative : Bool) :
    cutSign ((if negative then ['-'] else []) ++ cs) = (negative, cs) := by
  cases negative with
  | true => rfl
  | false => exact h

theorem cutSign_magnitudeChars (bits : Nat) : cutSign (magnitudeChars bits) = (false, magnitudeChars bits) := by
  unfold magnitudeChars
  split
  · rfl
  · split
    · rfl
    · obtain ⟨x, hread, -⟩ := readDecimal?_chars (shortest (.ofBits bits)) false
      exact cutSign_of_readDecimal? hread

/-- There is a point, an exponent or a word, so that no magnitude is written in digits alone. -/
theorem allDigits_magnitudeChars (bits : Nat) : allDigits (magnitudeChars bits) = false := by
  unfold magnitudeChars Scaled.chars positional scientific
  dsimp only
  repeat' split
  all_goals simp [allDigits]

theorem readFloat?_magnitudeChars {bits : Nat} (h : bits ≤ infinityBits) (negative : Bool) :
    readFloat? ((if negative then ['-'] else []) ++ magnitudeChars bits) = some (ofMagnitude negative bits) := by
  unfold readFloat?
  rw [cutSign_signed (cutSign_magnitudeChars bits)]
  by_cases hinf : bits = infinityBits
  · rw [magnitudeChars, if_pos hinf, hinf]
    rfl
  by_cases hzero : bits = 0
  · rw [magnitudeChars, if_neg hinf, if_pos hzero, hzero]
    rfl
  have hpos : 0 < bits := Nat.pos_of_ne_zero hzero
  have hlt : bits < infinityBits := Nat.lt_of_le_of_ne h hinf
  have henc := Dyadic.encodes_ofBits hlt
  have hattracts := attracts_shortest henc (henc.mantissa_pos hpos)
  obtain ⟨x, hread, rfl, hvalue⟩ := readDecimal?_chars (shortest (.ofBits bits)) negative
  rw [← hvalue] at hattracts
  rw [magnitudeChars, if_neg hinf, if_neg hzero, ← Decimal.toFloat_of_attracts hpos hlt hattracts]
  simp only [hread]

/-- **The text of a float is read as its sign and its magnitude**, or as no number if it is none. -/
theorem readFloat?_floatText (x : Float) :
    readFloat? (floatText x).toList =
      some (if isNan x then nan else ofMagnitude (isNegative x) (magnitudeBits x)) := by
  rw [floatText, String.toList_ofList, floatChars]
  split
  · rfl
  · rename_i hnan
    refine readFloat?_magnitudeChars ?_ (isNegative x)
    rw [isNan, decide_eq_true_eq, Nat.not_lt] at hnan
    exact hnan

theorem readInteger_floatText (x : Float) : readInteger (floatText x).toList = .none := by
  rw [floatText, String.toList_ofList, floatChars]
  split
  · rfl
  · rw [readInteger, cutSign_signed (cutSign_magnitudeChars _)]
    simp [allDigits_magnitudeChars]

end Number

namespace Token

/-- No word has an odd i in it. -/
theorem readWord?_of_oddI {word : List Char} {c : Char} (hc : c ∈ word) (hi : isOddI c = true) (negative : Bool) :
    Number.readWord? negative word = none := by
  have hchar : c = Char.ofNat 0x130 ∨ c = Char.ofNat 0x131 := by
    simp only [isOddI, Bool.or_eq_true, beq_iff_eq] at hi
    exact hi.imp (fun h => Char.toNat_inj.1 h) (fun h => Char.toNat_inj.1 h)
  have hmem : c.toLower ∈ word.map Char.toLower := List.mem_map_of_mem hc
  have hnot : c.toLower ∉ ['i', 'n', 'f'] ∧ c.toLower ∉ ['i', 'n', 'f', 'i', 'n', 'i', 't', 'y'] ∧
      c.toLower ∉ ['n', 'a', 'n'] := by
    rcases hchar with rfl | rfl <;> decide
  obtain ⟨hinf, hinfinity, hnan⟩ := hnot
  unfold Number.readWord?
  dsimp only
  rw [if_neg, if_neg]
  · intro hw
    exact hnan (hw ▸ hmem)
  · rintro (hw | hw)
    · exact hinf (hw ▸ hmem)
    · exact hinfinity (hw ▸ hmem)

/-- What is read as a float is no odd word. -/
theorem isOddWord_of_readFloat? {token : String} {x : Float} (h : Number.readFloat? token.toList = some x) :
    isOddWord token.toList = false := by
  by_contra hodd
  rw [Bool.not_eq_false, isOddWord_iff] at hodd
  obtain ⟨sign, word, hcs, hs, hword, c, hc, hi⟩ := hodd
  have hcut := cutSign_append_infinity hs hword
  have hdecimal : ∀ negative, Number.readDecimal? negative word = none := by
    intro negative
    cases word with
    | nil => cases hc
    | cons d word =>
      have hd : foldI d = 'i' := by
        rcases hword with hword | hword <;> exact (List.cons.inj hword).1
      refine Number.readDecimal?_eq_none ?_ ?_ negative word
      · have hall : ∀ n < 58, (Char.ofNat n).isDigit = true → foldI (Char.ofNat n) ≠ 'i' := by decide
        rw [Bool.eq_false_iff]
        intro hdigit
        have hlt : d.toNat < 58 := Nat.lt_succ_of_le (Char.isDigit_iff_toNat.1 hdigit).2
        exact Text.of_toNat_lt (P := fun c => c.isDigit = true → foldI c ≠ 'i') hall hlt hdigit hd
      · rintro rfl
        cases hd
  unfold Number.readFloat? at h
  simp [hcs, hcut, hdecimal, readWord?_of_oddI hc hi] at h

/-- **The text of a float is a literal of it.** -/
theorem classify_floatText (x : Float) :
    classify (Number.floatText x) = .ok (.float
      (if Number.isNan x then Number.nan else Number.ofMagnitude (Number.isNegative x) (Number.magnitudeBits x))) := by
  have hread := Number.readFloat?_floatText x
  rw [classify, integer?, Number.readInteger_floatText, float?, isOddWord_of_readFloat? hread, hread]
  rfl

end Token
end PushMachine
