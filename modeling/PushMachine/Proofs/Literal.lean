import Mathlib.Algebra.Group.Nat.Defs
import PushMachine.Token
import PushMachine.Tree.Value
/-!
# Literals

The text of an integer is its sign, if it is negative, and its decimal digits.  Reading it gives the integer back
(`readInteger_repr`), and executed as a token it is that integer again if it is of 64 bits (`classify_repr`).

Two kinds of token cannot be read at all (`classify_eq_error_iff`): an integer of more digits than are read, and a word
that is an infinity only as long as no attention is paid to which i it is spelled with.
-/
namespace PushMachine

/-- What holds of the first characters by their numbers. -/
theorem Text.of_toNat_lt {P : Char → Prop} {n : Nat} (h : ∀ k < n, P (Char.ofNat k)) {c : Char} (hc : c.toNat < n) :
    P c := by
  have hk := h c.toNat hc
  rwa [Char.ofNat_toNat] at hk

namespace Number

/-- The characters of the text of an integer. -/
def integerChars (n : Int) : List Char := (if n < 0 then ['-'] else []) ++ Nat.toDigits 10 n.natAbs

theorem toList_repr (n : Int) : n.repr.toList = integerChars n := by
  cases n with
  | ofNat k =>
    have hn : ¬ (Int.ofNat k < 0) := Int.not_lt.2 (Int.natCast_nonneg k)
    rw [integerChars, if_neg hn, List.nil_append, Int.repr, Nat.repr_eq_ofList_toDigits, String.toList_ofList]
    rfl
  | negSucc k =>
    have hn : Int.negSucc k < 0 := Int.negSucc_lt_zero k
    rw [integerChars, if_pos hn, Int.repr, Nat.repr_eq_ofList_toDigits, String.toList_append, String.toList_ofList,
      String.toList_ofList]
    rfl

theorem allDigits_iff {cs : List Char} : allDigits cs = true ↔ cs ≠ [] ∧ ∀ c ∈ cs, c.isDigit = true := by
  rw [allDigits, Bool.and_eq_true, List.all_eq_true, Bool.not_eq_true', List.isEmpty_eq_false_iff]

theorem isDigit_of_mem_toDigits {n : Nat} : ∀ c ∈ Nat.toDigits 10 n, c.isDigit = true := fun _ hc =>
  Nat.isDigit_of_mem_toDigits (by decide) (by decide) hc

theorem allDigits_toDigits (n : Nat) : allDigits (Nat.toDigits 10 n) = true :=
  allDigits_iff.2 ⟨Nat.toDigits_ne_nil, isDigit_of_mem_toDigits⟩

/-- Digits begin with no sign. -/
theorem cutSign_of_allDigits {cs : List Char} (h : allDigits cs = true) : cutSign cs = (false, cs) := by
  unfold cutSign
  split
  · simp [allDigits] at h
  · simp [allDigits] at h
  · rfl

theorem digitsValue_toDigits (n : Nat) : digitsValue (Nat.toDigits 10 n) = n :=
  Nat.ofDigitChars_toDigits (by decide) (by decide)

theorem isWritable_iff {n : Int} : isWritable n = true ↔ n.natAbs < 10 ^ digitLimit :=
  decide_eq_true_iff.trans (Nat.length_toDigits_le_iff (by decide) (by decide))

/-- What lies between two integers that can be written can be written. -/
theorem isWritable_of_between {low high n : Int} (hlow : isWritable low = true) (hhigh : isWritable high = true)
    (h₁ : low ≤ n) (h₂ : n ≤ high) : isWritable n = true := by
  rw [isWritable_iff] at hlow hhigh ⊢
  omega

theorem isWritable_of_inInt64 {n : Int} (h : inInt64 n = true) : isWritable n = true := by
  have hb := inInt64_iff.1 h
  rw [isWritable_iff]
  calc n.natAbs < 10 ^ 19 := by omega
    _ ≤ 10 ^ digitLimit := Nat.pow_le_pow_right (by decide) (by decide)

/-- **Reading the text of an integer gives it back**, unless it has more digits than are read. -/
theorem readInteger_repr {n : Int} (h : isWritable n = true) : readInteger n.repr.toList = .value n := by
  have hlen : ¬ digitLimit < (Nat.toDigits 10 n.natAbs).length := Nat.not_lt.2 (decide_eq_true_iff.1 h)
  have hall := allDigits_toDigits n.natAbs
  rw [toList_repr, integerChars, readInteger]
  by_cases hn : n < 0
  · rw [if_pos hn, List.singleton_append, cutSign]
    simp only [hall, Bool.not_true, Bool.false_eq_true, if_false, if_neg hlen, if_true, digitsValue_toDigits]
    congr 1
    omega
  · rw [if_neg hn, List.nil_append, cutSign_of_allDigits hall]
    simp only [hall, Bool.not_true, Bool.false_eq_true, if_false, if_neg hlen, digitsValue_toDigits]
    congr 1
    omega

end Number

namespace Token

theorem inInt64_of_classify {token : String} {n : Int} (h : classify token = .ok (.integer n)) :
    Number.inInt64 n = true := by
  unfold classify at h
  split at h
  · cases h
  · rename_i k hk
    cases h
    unfold integer? at hk
    split at hk
    · cases hk
    · cases hk
    · rename_i j hj
      by_cases hin : Number.inInt64 j = true
      · rw [if_pos hin] at hk
        cases hk
        exact hin
      · rw [if_neg hin] at hk
        cases hk
  · split at h
    · cases h
    · cases h
    · split at h
      · cases h
      · unfold symbol at h
        split at h <;> cases h

theorem eq_lower_of_classify {token name : String} (h : classify token = .ok (.name name)) :
    name = Text.lower token := by
  unfold classify at h
  split at h
  · cases h
  · cases h
  · split at h
    · cases h
    · cases h
    · split at h
      · cases h
      · unfold symbol at h
        split at h
        · cases h
        · cases h
          rfl

/-- **The text of an integer of 64 bits is a literal of it.** -/
theorem classify_repr {n : Int} (h : Number.inInt64 n = true) : classify n.repr = .ok (.integer n) := by
  rw [classify, integer?, Number.readInteger_repr (Number.isWritable_of_inInt64 h)]
  simp only [h, if_true]

/-! ## Tokens that cannot be read -/

/-- At most one sign. -/
def IsSign (cs : List Char) : Prop := cs = [] ∨ cs = ['-'] ∨ cs = ['+']

/-- A sign or none, and more digits than are read. -/
def TooLong (token : String) (count : Nat) : Prop :=
  ∃ sign digits, token.toList = sign ++ digits ∧ IsSign sign ∧ (∀ c ∈ digits, c.isDigit = true) ∧
    digits.length = count ∧ Number.digitLimit < count

/-- The small letter that a letter passes for. -/
def foldI (c : Char) : Char := if isOddI c then 'i' else c.toLower

/-- A sign or none, and a word for infinity that is spelled with an odd i. -/
def OddInfinity (token : String) : Prop :=
  ∃ sign word, token.toList = sign ++ word ∧ IsSign sign ∧
    (word.map foldI = ['i', 'n', 'f'] ∨ word.map foldI = ['i', 'n', 'f', 'i', 'n', 'i', 't', 'y']) ∧
    ∃ c ∈ word, isOddI c = true

theorem exists_sign (cs : List Char) : ∃ sign, IsSign sign ∧ cs = sign ++ (Number.cutSign cs).2 ∧
    (Number.cutSign cs).1 = decide (sign = ['-']) := by
  unfold Number.cutSign
  split
  · exact ⟨['-'], .inr (.inl rfl), rfl, rfl⟩
  · exact ⟨['+'], .inr (.inr rfl), rfl, rfl⟩
  · exact ⟨[], .inl rfl, rfl, rfl⟩

/-- What follows a sign is what is left once the sign is cut, unless it begins with another sign. -/
theorem cutSign_append {sign rest : List Char} (hs : IsSign sign) (hm : rest.head? ≠ some '-')
    (hp : rest.head? ≠ some '+') : (Number.cutSign (sign ++ rest)).2 = rest := by
  rcases hs with rfl | rfl | rfl
  · rw [List.nil_append]
    unfold Number.cutSign
    split
    · exact absurd rfl hm
    · exact absurd rfl hp
    · rfl
  · rfl
  · rfl

theorem readInteger_eq_tooLong_iff {token : String} {count : Nat} :
    Number.readInteger token.toList = .tooLong count ↔ TooLong token count := by
  constructor
  · intro h
    obtain ⟨sign, hs, hcs, -⟩ := exists_sign token.toList
    unfold Number.readInteger at h
    generalize hcut : Number.cutSign token.toList = cut at h hcs
    obtain ⟨negative, digits⟩ := cut
    cases hall : Number.allDigits digits with
    | false => simp [hall] at h
    | true =>
      by_cases hlt : Number.digitLimit < digits.length
      · simp only [hall, Bool.not_true, Bool.false_eq_true, if_false, if_pos hlt, Number.IntegerReading.tooLong.injEq] at h
        exact ⟨sign, digits, hcs, hs, (Number.allDigits_iff.1 hall).2, h, h ▸ hlt⟩
      · simp [hall, hlt] at h
  · rintro ⟨sign, digits, hcs, hs, hdigits, rfl, hlt⟩
    have hne : digits ≠ [] := fun h => by rw [h] at hlt; cases hlt
    have hall := Number.allDigits_iff.2 ⟨hne, hdigits⟩
    have hhead : ∀ c : Char, c.isDigit = false → digits.head? ≠ some c := fun c hc h => by
      rw [hdigits c (List.mem_of_head? h)] at hc
      cases hc
    have hcut := cutSign_append hs (hhead '-' rfl) (hhead '+' rfl)
    unfold Number.readInteger
    simp only [hcs, hcut, hall, Bool.not_true, Bool.false_eq_true, if_false, if_pos hlt]

/-- A word for infinity begins with no sign. -/
theorem cutSign_append_infinity {sign word : List Char} (hs : IsSign sign)
    (hword : word.map foldI = ['i', 'n', 'f'] ∨ word.map foldI = ['i', 'n', 'f', 'i', 'n', 'i', 't', 'y']) :
    (Number.cutSign (sign ++ word)).2 = word := by
  have hhead : ∀ d : Char, foldI d ≠ 'i' → word.head? ≠ some d := by
    intro d hd h
    obtain ⟨rest, rfl⟩ := List.head?_eq_some_iff.1 h
    rcases hword with hword | hword <;> exact hd (List.cons.inj hword).1
  exact cutSign_append hs (hhead '-' (by decide)) (hhead '+' (by decide))

/-- **The words that pass for an infinity and are none.** -/
theorem isOddWord_iff {token : String} : isOddWord token.toList = true ↔ OddInfinity token := by
  have hfold : ∀ cs : List Char, (cs.map fun c => if isOddI c then 'i' else c).map Char.toLower = cs.map foldI := by
    intro cs
    rw [List.map_map]
    refine List.map_congr_left fun c _ => ?_
    by_cases hc : isOddI c = true
    · simp only [Function.comp, foldI, if_pos hc]
      rfl
    · simp only [Function.comp, foldI, if_neg hc]
  rw [isOddWord, Bool.and_eq_true, List.any_eq_true]
  constructor
  · rintro ⟨⟨c, hc, hodd⟩, hword⟩
    obtain ⟨sign, hs, hcs, -⟩ := exists_sign token.toList
    have hmem : c ∈ (Number.cutSign token.toList).2 := by
      rw [hcs] at hc
      rcases List.mem_append.1 hc with hc | hc
      · -- no sign is an odd i
        rcases hs with rfl | rfl | rfl
        · cases hc
        · rw [List.mem_singleton.1 hc] at hodd; cases hodd
        · rw [List.mem_singleton.1 hc] at hodd; cases hodd
      · exact hc
    have hi : 'i' ∈ (Number.cutSign token.toList).2.map foldI :=
      List.mem_map.2 ⟨c, hmem, by rw [foldI, if_pos hodd]⟩
    refine ⟨sign, _, hcs, hs, ?_, c, hmem, hodd⟩
    unfold Number.readWord? at hword
    simp only [hfold] at hword
    by_cases hinf : (Number.cutSign token.toList).2.map foldI = ['i', 'n', 'f'] ∨
        (Number.cutSign token.toList).2.map foldI = ['i', 'n', 'f', 'i', 'n', 'i', 't', 'y']
    · exact hinf
    · rw [if_neg hinf] at hword
      by_cases hnan : (Number.cutSign token.toList).2.map foldI = ['n', 'a', 'n']
      · rw [hnan] at hi
        exact absurd hi (by decide)
      · rw [if_neg hnan] at hword
        cases hword
  · rintro ⟨sign, word, hcs, hs, hinf, c, hc, hodd⟩
    have hcut := cutSign_append_infinity hs hinf
    refine ⟨⟨c, by rw [hcs]; exact List.mem_append_right sign hc, hodd⟩, ?_⟩
    unfold Number.readWord?
    simp only [hcs, hcut, hfold]
    rw [if_pos hinf]
    rfl

theorem readInteger_of_oddInfinity {token : String} (h : OddInfinity token) :
    Number.readInteger token.toList = .none := by
  obtain ⟨sign, word, hcs, hs, hinf, c, hc, hodd⟩ := h
  have hcut := cutSign_append_infinity hs hinf
  have hdigit : c.isDigit = false := by
    by_cases hd : c.isDigit = true
    · have hnine : c.toNat ≤ 57 := (Char.isDigit_iff_toNat.1 hd).2
      rw [isOddI, Bool.or_eq_true, beq_iff_eq, beq_iff_eq] at hodd
      omega
    · exact Bool.not_eq_true _ ▸ hd
  have hall : Number.allDigits word = false := by
    rw [Number.allDigits, Bool.and_eq_false_iff, List.all_eq_false]
    exact .inr ⟨c, hc, by rw [hdigit]; exact Bool.false_ne_true⟩
  unfold Number.readInteger
  simp only [hcs, hcut, hall]
  rfl

theorem float?_eq_error_iff {token : String} {f : Fault} :
    float? token = .error f ↔ f = .unreadableFloat token ∧ OddInfinity token := by
  rw [float?, ← isOddWord_iff]
  by_cases ho : isOddWord token.toList = true
  · rw [if_pos ho, Except.error.injEq, and_iff_left ho, eq_comm]
  · rw [if_neg ho]
    exact ⟨fun h => (by cases h), fun h => absurd h.2 ho⟩

/-- A token that is no integer is read unless it passes for an infinity. -/
theorem classify_eq_error_iff_of_integer? {token : String} (h : integer? token = .ok none) {f : Fault} :
    classify token = .error f ↔ float? token = .error f := by
  rw [classify, h]
  dsimp only
  cases hf : float? token with
  | error g => simp only [Except.error.injEq]
  | ok x =>
    refine ⟨fun he => ?_, fun he => (by cases he)⟩
    cases x with
    | some x => cases he
    | none =>
      dsimp only at he
      split at he <;> cases he

/-- **The tokens that cannot be read**, and what is wrong with them. -/
theorem classify_eq_error_iff {token : String} {f : Fault} :
    classify token = .error f ↔ (∃ count, f = .tooManyDigits count ∧ TooLong token count) ∨
      (f = .unreadableFloat token ∧ OddInfinity token) := by
  have hfloat : Number.readInteger token.toList ≠ .none → float? token ≠ .error f := fun hne h =>
    hne (readInteger_of_oddInfinity (float?_eq_error_iff.1 h).2)
  simp only [← readInteger_eq_tooLong_iff, ← float?_eq_error_iff]
  cases hr : Number.readInteger token.toList with
  | tooLong count =>
    have hi : integer? token = .error (.tooManyDigits count) := by rw [integer?, hr]
    have hf := hfloat (by simp [hr])
    rw [classify, hi]
    simp [hf, eq_comm]
  | value n =>
    have hf := hfloat (by simp [hr])
    cases hin : Number.inInt64 n with
    | true =>
      have hi : integer? token = .ok (some n) := by rw [integer?, hr]; simp [hin]
      rw [classify, hi]
      simp [hf]
    | false =>
      have hi : integer? token = .ok none := by rw [integer?, hr]; simp [hin]
      rw [classify_eq_error_iff_of_integer? hi]
      simp [hf]
  | none =>
    have hi : integer? token = .ok none := by rw [integer?, hr]
    rw [classify_eq_error_iff_of_integer? hi]
    simp

end Token
end PushMachine
