import PushMachine.Proofs.SmallLetters
/-!
# The classes of tokens

The classes of tokens overlap, and the first that fits is taken: `Classified` states for each when it is that one, by a
grammar of its own.  The grammars say how a text is put together and which value that gives, and nothing about how it is
read: for numbers, `IntegerText` and `FloatText` are shown to hold of exactly what the readers accept, with the value
that they give (`readInteger_eq_value_iff`, `readFloat?_eq_some_iff`).
-/
namespace PushMachine

open Token (IsSign exists_sign)

namespace Number

/-! ## Grammars of numbers -/

/-- One or more ASCII digits. -/
def IsDigits (cs : List Char) : Prop := cs ≠ [] ∧ ∀ c ∈ cs, c.isDigit = true

/-- **An integer**: a sign or none, and digits. -/
def IntegerText (cs : List Char) (n : Int) : Prop :=
  ∃ sign digits, cs = sign ++ digits ∧ IsSign sign ∧ IsDigits digits ∧
    n = if sign = ['-'] then -(digitsValue digits : Int) else digitsValue digits

/-- Digits with at most one point, and at least one digit, before or after it. -/
def Mantissa (cs whole fraction : List Char) : Prop :=
  (cs = whole ++ '.' :: fraction ∨ cs = whole ∧ fraction = []) ∧ IsDigits (whole ++ fraction)

/-- Nothing, or a mark and an integer. -/
def Exponent (cs : List Char) (e : Int) : Prop :=
  (cs = [] ∧ e = 0) ∨ ∃ mark rest, cs = mark :: rest ∧ (mark = 'e' ∨ mark = 'E') ∧ IntegerText rest e

/-- **A float**: a sign or none, and a mantissa and an exponent, or one of the words in any case. -/
inductive FloatText (cs : List Char) : Float → Prop
  | decimal {sign mantissa whole fraction exponent : List Char} {e : Int} (h : cs = sign ++ (mantissa ++ exponent))
      (hs : IsSign sign) (hm : Mantissa mantissa whole fraction) (he : Exponent exponent e) :
      FloatText cs (Decimal.toFloat ⟨decide (sign = ['-']), digitsValue (whole ++ fraction), e - fraction.length⟩)
  | infinity {sign word : List Char} (h : cs = sign ++ word) (hs : IsSign sign)
      (hw : word.map Char.toLower = ['i', 'n', 'f'] ∨
        word.map Char.toLower = ['i', 'n', 'f', 'i', 'n', 'i', 't', 'y']) :
      FloatText cs (Number.infinity (sign = ['-']))
  | nan {sign word : List Char} (h : cs = sign ++ word) (hs : IsSign sign)
      (hw : word.map Char.toLower = ['n', 'a', 'n']) : FloatText cs Number.nan

/-! ## What the readers accept -/

/-- A sign is cut off what begins with none. -/
theorem cutSign_append_of_unsigned {sign rest : List Char} (hs : IsSign sign) (h : cutSign rest = (false, rest)) :
    cutSign (sign ++ rest) = (decide (sign = ['-']), rest) := by
  rcases hs with rfl | rfl | rfl
  · exact h
  · rfl
  · rfl

theorem integerText_iff {cs : List Char} {n : Int} :
    IntegerText cs n ↔ allDigits (cutSign cs).2 = true ∧
      n = if (cutSign cs).1 then -(digitsValue (cutSign cs).2 : Int) else digitsValue (cutSign cs).2 := by
  constructor
  · rintro ⟨sign, digits, rfl, hs, hdigits, rfl⟩
    have hall : allDigits digits = true := allDigits_iff.2 hdigits
    rw [cutSign_append_of_unsigned hs (cutSign_of_allDigits hall)]
    simp [hall]
  · rintro ⟨hall, rfl⟩
    obtain ⟨sign, hs, hcs, hneg⟩ := exists_sign cs
    refine ⟨sign, _, hcs, hs, allDigits_iff.1 hall, ?_⟩
    simp [hneg]

/-- **What is read as an integer.** -/
theorem readInteger_eq_value_iff {cs : List Char} {n : Int} :
    readInteger cs = .value n ↔ IntegerText cs n ∧ (cutSign cs).2.length ≤ digitLimit := by
  rw [integerText_iff, readInteger]
  dsimp only
  cases allDigits (cutSign cs).2 with
  | false => simp
  | true =>
    by_cases hlt : digitLimit < (cutSign cs).2.length
    · simp [hlt]
    · simp only [Bool.not_true, Bool.false_eq_true, if_false, if_neg hlt, IntegerReading.value.injEq, true_and,
        and_iff_left (Nat.le_of_not_lt hlt)]
      exact eq_comm

theorem readExponent?_eq_some_iff {cs : List Char} {e : Int} : readExponent? cs = some e ↔ Exponent cs e := by
  cases cs with
  | nil => simp [readExponent?, Exponent, eq_comm]
  | cons c cs =>
    have hex : Exponent (c :: cs) e ↔ (c = 'e' ∨ c = 'E') ∧ IntegerText cs e := by
      constructor
      · rintro (⟨h, -⟩ | ⟨mark, rest, h, hmark, hint⟩)
        · cases h
        · cases h
          exact ⟨hmark, hint⟩
      · rintro ⟨hmark, hint⟩
        exact .inr ⟨c, cs, rfl, hmark, hint⟩
    rw [hex, integerText_iff, readExponent?]
    dsimp only
    cases allDigits (cutSign cs).2 with
    | false => simp
    | true =>
      by_cases hmark : c = 'e' ∨ c = 'E'
      · simp only [← Bool.decide_or, hmark, decide_true, Bool.and_true, if_true, Option.some.injEq, true_and]
        exact eq_comm
      · simp [← Bool.decide_or, hmark]

/-- What is before the exponent, and where its point is. -/
theorem exists_cutPoint_eq (cs : List Char) : ∃ whole fraction rest, cutPoint cs = (whole, fraction, rest) ∧
    (cs = whole ++ '.' :: fraction ++ rest ∨ cs = whole ++ rest ∧ fraction = []) ∧
    ∀ c ∈ whole ++ fraction, c.isDigit = true := by
  have hdigits : ∀ cs : List Char, ∀ c ∈ cs.takeWhile Char.isDigit, c.isDigit = true := fun _ _ hc =>
    List.mem_takeWhile_imp hc
  have hsplit : cs = cs.takeWhile Char.isDigit ++ cs.dropWhile Char.isDigit := List.takeWhile_append_dropWhile.symm
  unfold cutPoint
  split
  · rename_i r hdrop
    refine ⟨_, _, _, rfl, .inl ?_, List.forall_mem_append.2 ⟨hdigits cs, hdigits r⟩⟩
    rw [hdrop] at hsplit
    rw [List.append_assoc, List.cons_append, List.takeWhile_append_dropWhile]
    exact hsplit
  · refine ⟨_, _, _, rfl, .inr ⟨hsplit, rfl⟩, ?_⟩
    rw [List.append_nil]
    exact hdigits cs

theorem readDecimal?_of_mantissa (negative : Bool) {mantissa whole fraction rest : List Char} {e : Int}
    (hm : Mantissa mantissa whole fraction) (he : Exponent rest e) :
    readDecimal? negative (mantissa ++ rest) =
      some ⟨negative, digitsValue (whole ++ fraction), e - fraction.length⟩ := by
  obtain ⟨hm, hsome, hdigits⟩ := hm
  have he := readExponent?_eq_some_iff.2 he
  obtain ⟨hw, hf⟩ := List.forall_mem_append.1 hdigits
  have hcut : cutPoint (mantissa ++ rest) = (whole, fraction, rest) := by
    rcases hm with rfl | ⟨rfl, rfl⟩
    · rw [List.append_assoc, List.cons_append, cutPoint_of_point hw hf he]
    · exact cutPoint_of_whole hw he
  have hne : (whole.isEmpty && fraction.isEmpty) = false := by
    rw [Bool.eq_false_iff]
    simpa [List.append_eq_nil_iff] using hsome
  simp [readDecimal?, hcut, hne, he]

/-- **What is read as a decimal.** -/
theorem readDecimal?_eq_some_iff {negative : Bool} {cs : List Char} {d : Decimal} :
    readDecimal? negative cs = some d ↔ ∃ mantissa whole fraction exponent e, cs = mantissa ++ exponent ∧
      Mantissa mantissa whole fraction ∧ Exponent exponent e ∧
      d = ⟨negative, digitsValue (whole ++ fraction), e - fraction.length⟩ := by
  constructor
  · intro h
    obtain ⟨whole, fraction, rest, hcut, hcs, hdigits⟩ := exists_cutPoint_eq cs
    rw [readDecimal?, hcut] at h
    dsimp only at h
    split at h
    · cases h
    · rename_i hne
      obtain ⟨e, he, rfl⟩ := Option.map_eq_some_iff.1 h
      have hsome : whole ++ fraction ≠ [] := by simpa [List.append_eq_nil_iff] using hne
      rcases hcs with rfl | ⟨rfl, rfl⟩
      · exact ⟨_, whole, fraction, rest, e, rfl, ⟨.inl rfl, hsome, hdigits⟩, readExponent?_eq_some_iff.1 he, rfl⟩
      · exact ⟨whole, whole, [], rest, e, rfl, ⟨.inr ⟨rfl, rfl⟩, hsome, hdigits⟩, readExponent?_eq_some_iff.1 he, rfl⟩
  · rintro ⟨mantissa, whole, fraction, rest, e, rfl, hm, he, rfl⟩
    exact readDecimal?_of_mantissa negative hm he

/-- **What is read as a float.** -/
theorem readFloat?_eq_some_iff {cs : List Char} {x : Float} : readFloat? cs = some x ↔ FloatText cs x := by
  constructor
  · intro h
    obtain ⟨sign, hs, hcs, hneg⟩ := exists_sign cs
    rw [readFloat?] at h
    dsimp only at h
    rw [hneg] at h
    split at h
    · rename_i d hd
      cases h
      obtain ⟨mantissa, whole, fraction, exponent, e, hbody, hm, he, rfl⟩ := readDecimal?_eq_some_iff.1 hd
      exact .decimal (hbody ▸ hcs) hs hm he
    · unfold readWord? at h
      dsimp only at h
      split at h
      · rename_i hw
        cases h
        exact .infinity hcs hs hw
      · split at h
        · rename_i hw
          cases h
          exact .nan hcs hs hw
        · cases h
  · -- a word is read as its small letters are, which leaves a closed text for each sign
    intro h
    cases h with
    | decimal h hs hm he =>
      have hd := fun negative => readDecimal?_of_mantissa negative hm he
      rw [readFloat?, h, cutSign_append_of_unsigned hs (cutSign_of_readDecimal? (hd false))]
      dsimp only
      rw [hd]
    | infinity h hs hw =>
      rw [← readFloat?_map, h, List.map_append]
      rcases hw with hw | hw <;> rw [hw] <;> rcases hs with rfl | rfl | rfl <;> rfl
    | nan h hs hw =>
      rw [← readFloat?_map, h, List.map_append, hw]
      rcases hs with rfl | rfl | rfl <;> rfl

end Number

namespace Token

open Number (IntegerText FloatText)

/-! ## The other classes -/

/-- What is neither read nor classified. -/
def Unreadable (text : String) : Prop := (∃ count, TooLong text count) ∨ OddInfinity text

/-- An integer of 64 bits. -/
def Int64Text (text : String) (n : Int) : Prop :=
  IntegerText text.toList n ∧ -0x8000000000000000 ≤ n ∧ n ≤ 0x7fffffffffffffff

/-- A boolean, in any case. -/
def BooleanText (text : String) (b : Bool) : Prop := Text.lower text = if b then "true" else "false"

/-- What is before the first point and what is after it, in small letters. -/
def ReferenceText (text stack operation : String) : Prop :=
  ∃ before after, text.toList = before ++ '.' :: after ∧ '.' ∉ before ∧
    stack = Text.lower (String.ofList before) ∧ operation = Text.lower (String.ofList after)

theorem boolean?_eq_some_iff {text : String} {b : Bool} : boolean? text = some b ↔ BooleanText text b := by
  rw [boolean?, BooleanText]
  by_cases ht : Text.lower text = "true"
  · cases b <;> simp [ht]
  · by_cases hf : Text.lower text = "false" <;> cases b <;> simp [ht, hf]

theorem symbol_eq_instruction_iff {text stack operation : String} :
    symbol text = .instruction stack operation ↔ ReferenceText text stack operation := by
  have hlower : ∀ cs : List Char, Text.lower (String.ofList cs) = String.ofList (Text.lowerChars cs) := fun cs => by
    rw [Text.lower, String.toList_ofList]
  constructor
  · intro h
    cases hcut : cutAtPoint text.toList with
    | none =>
      rw [symbol, hcut] at h
      cases h
    | some halves =>
      obtain ⟨before, after⟩ := halves
      rw [symbol, hcut] at h
      cases h
      obtain ⟨hcs, hp⟩ := eq_of_cutAtPoint hcut
      exact ⟨before, after, hcs, hp, (hlower before).symm, (hlower after).symm⟩
  · rintro ⟨before, after, hcs, hp, rfl, rfl⟩
    rw [symbol, hcs, cutAtPoint_append hp, hlower, hlower]

theorem symbol_ne_literal (text : String) :
    (∀ n, symbol text ≠ .integer n) ∧ (∀ x, symbol text ≠ .float x) ∧ ∀ b, symbol text ≠ .boolean b := by
  unfold symbol
  split <;> simp

/-! ## The first class that fits -/

theorem readInteger_eq_value_iff_of_not_tooLong {text : String} (h : ¬ ∃ count, TooLong text count) {n : Int} :
    Number.readInteger text.toList = .value n ↔ IntegerText text.toList n := by
  refine ⟨fun hr => (Number.readInteger_eq_value_iff.1 hr).1, fun hint => ?_⟩
  refine Number.readInteger_eq_value_iff.2 ⟨hint, Nat.le_of_not_lt fun hlt => ?_⟩
  have hall := (Number.integerText_iff.1 hint).1
  have hlong : Number.readInteger text.toList = .tooLong (Number.cutSign text.toList).2.length := by
    rw [Number.readInteger]
    simp only [hall, Bool.not_true, Bool.false_eq_true, if_false, if_pos hlt]
  exact h ⟨_, readInteger_eq_tooLong_iff.1 hlong⟩

theorem exists_integer?_eq {text : String} (h : ¬ ∃ count, TooLong text count) :
    ∃ i, integer? text = .ok i ∧ ∀ n, i = some n ↔ Int64Text text n := by
  unfold Int64Text
  simp only [← readInteger_eq_value_iff_of_not_tooLong h]
  cases hr : Number.readInteger text.toList with
  | none => exact ⟨none, by rw [integer?, hr], by simp⟩
  | tooLong count => exact absurd ⟨count, readInteger_eq_tooLong_iff.1 hr⟩ h
  | value n =>
    refine ⟨if Number.inInt64 n then some n else none, by rw [integer?, hr], fun k => ?_⟩
    by_cases hin : Number.inInt64 n = true
    · rw [if_pos hin]
      constructor
      · rintro ⟨⟩
        exact ⟨rfl, Number.inInt64_iff.1 hin⟩
      · rintro ⟨⟨⟩, -⟩
        rfl
    · rw [if_neg hin]
      refine iff_of_false (by simp) ?_
      rintro ⟨⟨⟩, hk⟩
      exact hin (Number.inInt64_iff.2 hk)

/-- A text that is read is of the first class that fits. -/
theorem exists_classify_eq {text : String} (h : ¬ Unreadable text) :
    ∃ i : Option Int, (∀ n, i = some n ↔ Int64Text text n) ∧
      classify text = .ok (match i, Number.readFloat? text.toList, boolean? text with
        | some n, _,      _      => .integer n
        | none,   some x, _      => .float x
        | none,   none,   some b => .boolean b
        | none,   none,   none   => symbol text) := by
  obtain ⟨hlong, hodd⟩ := not_or.1 h
  obtain ⟨i, hi, hn⟩ := exists_integer?_eq hlong
  have hfloat : float? text = .ok (Number.readFloat? text.toList) := by
    rw [float?, if_neg (mt isOddWord_iff.1 hodd)]
  refine ⟨i, hn, ?_⟩
  rw [classify, hi, hfloat]
  rcases i with _ | n <;> rcases Number.readFloat? text.toList with _ | x <;> rcases boolean? text with _ | b <;> rfl

/-- **The class of a text**: a fault if it cannot be read, and else the first class that it fits. -/
structure Classified (text : String) : Prop where
  fault       : ∀ f, classify text = .error f ↔ (∃ count, f = .tooManyDigits count ∧ TooLong text count) ∨
    (f = .unreadableFloat text ∧ OddInfinity text)
  integer     : ∀ n, classify text = .ok (.integer n) ↔ ¬ Unreadable text ∧ Int64Text text n
  float       : ∀ x, classify text = .ok (.float x) ↔ ¬ Unreadable text ∧ (∀ n, ¬ Int64Text text n) ∧
    FloatText text.toList x
  boolean     : ∀ b, classify text = .ok (.boolean b) ↔ ¬ Unreadable text ∧ (∀ n, ¬ Int64Text text n) ∧
    (∀ x, ¬ FloatText text.toList x) ∧ BooleanText text b
  instruction : ∀ stack operation, classify text = .ok (.instruction stack operation) ↔ ¬ Unreadable text ∧
    (∀ n, ¬ Int64Text text n) ∧ (∀ x, ¬ FloatText text.toList x) ∧ (∀ b, ¬ BooleanText text b) ∧
    ReferenceText text stack operation
  name        : ∀ name, classify text = .ok (.name name) ↔ ¬ Unreadable text ∧ (∀ n, ¬ Int64Text text n) ∧
    (∀ x, ¬ FloatText text.toList x) ∧ (∀ b, ¬ BooleanText text b) ∧ '.' ∉ text.toList ∧ name = Text.lower text

theorem classify_ne_ok_of_unreadable {text : String} (h : Unreadable text) (t : Token) : classify text ≠ .ok t := by
  have hfault : ∃ f, classify text = .error f := by
    rcases h with ⟨count, hlong⟩ | hodd
    · exact ⟨_, classify_eq_error_iff.2 (.inl ⟨count, rfl, hlong⟩)⟩
    · exact ⟨_, classify_eq_error_iff.2 (.inr ⟨rfl, hodd⟩)⟩
  obtain ⟨f, hf⟩ := hfault
  rw [hf]
  exact fun ht => (by cases ht)

/-- **Every text is classified by these grammars.** -/
theorem classified (text : String) : Classified text := by
  by_cases h : Unreadable text
  · have hnone := classify_ne_ok_of_unreadable h
    exact ⟨fun _ => classify_eq_error_iff, fun _ => iff_of_false (hnone _) fun hr => hr.1 h,
      fun _ => iff_of_false (hnone _) fun hr => hr.1 h, fun _ => iff_of_false (hnone _) fun hr => hr.1 h,
      fun _ _ => iff_of_false (hnone _) fun hr => hr.1 h, fun _ => iff_of_false (hnone _) fun hr => hr.1 h⟩
  · obtain ⟨i, hi, hc⟩ := exists_classify_eq h
    have hx : ∀ x, FloatText text.toList x ↔ Number.readFloat? text.toList = some x := fun _ =>
      Number.readFloat?_eq_some_iff.symm
    have hb : ∀ b, BooleanText text b ↔ boolean? text = some b := fun _ => boolean?_eq_some_iff.symm
    have hname : ∀ name, '.' ∉ text.toList ∧ name = Text.lower text ↔ symbol text = .name name := fun _ =>
      symbol_eq_name_iff.symm
    have hsymbol := symbol_ne_literal text
    refine ⟨fun _ => classify_eq_error_iff, fun n => ?_, fun x => ?_, fun b => ?_, fun stack operation => ?_,
      fun name => ?_⟩
    -- what is read, and not how, decides which class is the first
    all_goals
      rw [hc]
      simp only [← hi, hx, hb, hname, h, ← symbol_eq_instruction_iff, not_false_iff, true_and]
      generalize Number.readFloat? text.toList = readFloat
      generalize boolean? text = readBoolean
      rcases i with _ | _ <;> rcases readFloat with _ | _ <;> rcases readBoolean with _ | _ <;> simp [hsymbol]

/-- A point and an exponent mark make no number unless there are digits where it needs them. -/
example : classify "5.e+" = .ok (.instruction "5" "e+") := by rfl

end Token
end PushMachine
