import PushMachine.Instruction.Code
import PushMachine.Proofs.Literal
import PushMachine.Proofs.Parsing
/-!
# What can be a token

A token is not empty and holds neither a blank nor a parenthesis.  Lower-casing keeps it so (`isToken_lower`), which is
read off the table: no row reaches a delimiter.  The texts of numbers, the names that are drawn and the references to
instructions are tokens too, so whatever a machine writes as code can be executed (`wellFormed_ofItem`).
-/
namespace PushMachine

theorem Text.inRanges_eq_false_iff {ranges : List (Nat × Nat)} {n : Nat} :
    inRanges ranges n = false ↔ ∀ r ∈ ranges, n < r.1 ∨ r.2 < n := by
  rw [inRanges, List.any_eq_false]
  refine forall₂_congr fun r _ => ?_
  rw [Bool.and_eq_true, decide_eq_true_eq, decide_eq_true_eq]
  omega

namespace Lexeme

/-! ## Delimiters -/

/-- The parentheses and the blanks, as closed ranges of code points. -/
def delimiterRanges : List (Nat × Nat) := (0x28, 0x29) :: Text.informationSeparators :: Text.spaceRanges

theorem isParenthesis_eq_false_iff {c : Char} : isParenthesis c = false ↔ c.toNat < 0x28 ∨ 0x29 < c.toNat := by
  have hopen : c = '(' ↔ c.toNat = 0x28 := Char.toNat_inj.symm
  have hclose : c = ')' ↔ c.toNat = 0x29 := Char.toNat_inj.symm
  rw [isParenthesis, Bool.or_eq_false_iff, beq_eq_false_iff_ne, beq_eq_false_iff_ne, Ne, Ne, hopen, hclose]
  omega

theorem isDelimiter_eq_false_iff {c : Char} :
    isDelimiter c = false ↔ ∀ r ∈ delimiterRanges, c.toNat < r.1 ∨ r.2 < c.toNat := by
  rw [isDelimiter, Bool.or_eq_false_iff, Text.isBlank, Text.inRanges_eq_false_iff, isParenthesis_eq_false_iff]
  exact ⟨fun h => List.forall_mem_cons.2 ⟨h.2, h.1⟩, fun h => (List.forall_mem_cons.1 h).symm⟩

/-- The characters of ASCII from the asterisk on are no delimiters. -/
theorem isDelimiter_of_ascii {c : Char} (hlow : 0x2A ≤ c.toNat) (hhigh : c.toNat < 0x80) : isDelimiter c = false := by
  have hranges : ∀ r ∈ delimiterRanges, r.2 < 0x2A ∨ 0x80 ≤ r.1 := by decide
  refine isDelimiter_eq_false_iff.2 fun r hr => ?_
  have := hranges r hr
  omega

theorem isDelimiter_ofNat {n : Nat} (h : ∀ r ∈ delimiterRanges, n < r.1 ∨ r.2 < n) : isDelimiter (Char.ofNat n) = false := by
  by_cases hv : n.isValidChar
  · have hnat : (Char.ofNat n).toNat = n := by rw [Char.ofNat, dif_pos hv]; rfl
    refine isDelimiter_eq_false_iff.2 fun r hr => ?_
    rw [hnat]
    exact h r hr
  · -- a number that is no character becomes the character zero
    have hzero : Char.ofNat n = Char.ofNat 0 := by rw [Char.ofNat, dif_neg hv]; rfl
    rw [hzero]
    decide

/-! ## Words -/

/-- No character of these is a delimiter. -/
def Unbroken (cs : List Char) : Prop := ∀ c ∈ cs, isDelimiter c = false

instance (cs : List Char) : Decidable (Unbroken cs) := List.decidableBAll (isDelimiter · = false) cs

namespace Unbroken

theorem nil : Unbroken [] := List.forall_mem_nil _

theorem cons {c : Char} {cs : List Char} (hc : isDelimiter c = false) (h : Unbroken cs) : Unbroken (c :: cs) :=
  List.forall_mem_cons.2 ⟨hc, h⟩

theorem append {as bs : List Char} (ha : Unbroken as) (hb : Unbroken bs) : Unbroken (as ++ bs) :=
  List.forall_mem_append.2 ⟨ha, hb⟩

theorem replicate {c : Char} (hc : isDelimiter c = false) (n : Nat) : Unbroken (List.replicate n c) := by
  intro d hd
  rw [List.eq_of_mem_replicate hd]
  exact hc

theorem subset {as bs : List Char} (hb : Unbroken bs) (h : as ⊆ bs) : Unbroken as := fun c hc => hb c (h hc)

theorem toDigits (n : Nat) : Unbroken (Nat.toDigits 10 n) := by
  intro c hc
  have hd := Char.isDigit_iff_toNat.1 (Nat.isDigit_of_mem_toDigits (by decide) (by decide) hc)
  have hzero : 48 ≤ c.toNat := hd.1
  have hnine : c.toNat ≤ 57 := hd.2
  exact isDelimiter_of_ascii (by omega) (by omega)

end Unbroken
end Lexeme

open Lexeme (isDelimiter delimiterRanges isDelimiter_eq_false_iff isDelimiter_ofNat isDelimiter_of_ascii Unbroken)

theorem Tree.isToken_ofList {cs : List Char} (hne : cs ≠ []) (h : Unbroken cs) : isToken (String.ofList cs) = true := by
  rw [isToken_iff, String.toList_ofList]
  exact ⟨hne, h⟩

/-! ## Lower case -/

namespace Text

theorem delimiterRanges_pos : ∀ d ∈ delimiterRanges, 0 < d.1 := by decide

/-- No row of the table leads to a delimiter. -/
theorem caseRows_avoid : ∀ r ∈ caseRows, ∀ d ∈ delimiterRanges,
    (r.last : Int) + r.shift < d.1 ∨ (d.2 : Int) < r.first + r.shift := by
  decide +kernel

theorem isDelimiter_toLower {c : Char} (ha : c.toNat < 0x80) (h : isDelimiter c = false) :
    isDelimiter c.toLower = false := by
  have hall : ∀ n < 0x80, isDelimiter (Char.ofNat n) = false → isDelimiter (Char.ofNat n).toLower = false := by decide
  exact Text.of_toNat_lt (P := fun c => isDelimiter c = false → isDelimiter c.toLower = false) hall ha h

theorem unbroken_lowerChar {c : Char} (h : isDelimiter c = false) : Unbroken (lowerChar c) := by
  unfold lowerChar
  split
  · rename_i ha
    exact .cons (isDelimiter_toLower ha h) .nil
  · split
    · exact .cons (by decide) (.cons (by decide) .nil)
    · split
      · rename_i r hr
        refine .cons (isDelimiter_ofNat fun d hd => ?_) .nil
        have havoid := caseRows_avoid r (List.mem_of_find?_eq_some hr) d hd
        have hcovers := List.find?_some hr
        have hpos := delimiterRanges_pos d hd
        simp only [CaseRow.covers, Bool.and_eq_true, decide_eq_true_eq] at hcovers
        omega
      · exact .cons h .nil

theorem unbroken_lowerFrom : ∀ (before cs : List Char), Unbroken cs → Unbroken (lowerFrom before cs)
  | _,      [],      _ => .nil
  | before, c :: cs, h => by
    obtain ⟨hc, hcs⟩ := List.forall_mem_cons.1 h
    rw [lowerFrom]
    refine .append ?_ (unbroken_lowerFrom (c :: before) cs hcs)
    split
    · split <;> exact .cons (by decide) .nil
    · exact unbroken_lowerChar hc

theorem lowerChar_ne_nil (c : Char) : lowerChar c ≠ [] := by
  unfold lowerChar
  repeat' split
  all_goals simp

theorem lowerFrom_ne_nil {cs : List Char} (h : cs ≠ []) (before : List Char) : lowerFrom before cs ≠ [] := by
  cases cs with
  | nil => exact absurd rfl h
  | cons c cs =>
    rw [lowerFrom]
    refine List.append_ne_nil_of_left_ne_nil ?_ _
    split
    · simp
    · exact lowerChar_ne_nil c

/-- **The lower case of a token is a token.** -/
theorem isToken_lower {s : String} (h : Tree.isToken s = true) : Tree.isToken (lower s) = true := by
  obtain ⟨hne, hall⟩ := Tree.isToken_iff.1 h
  exact Tree.isToken_ofList (lowerFrom_ne_nil hne []) (unbroken_lowerFrom [] _ hall)

end Text

/-! ## Numbers -/

namespace Number

open Lexeme.Unbroken (nil cons append replicate subset toDigits)

theorem isToken_repr (n : Int) : Tree.isToken n.repr = true := by
  rw [Tree.isToken_iff, toList_repr, integerChars]
  refine ⟨List.append_ne_nil_of_right_ne_nil _ Nat.toDigits_ne_nil, append ?_ (toDigits _)⟩
  split
  · exact cons (by decide) nil
  · exact nil

theorem unbroken_positional {digits : List Char} (h : Unbroken digits) (exponent : Int) :
    Unbroken (positional digits exponent) := by
  unfold positional
  dsimp only
  split
  · exact append (append h (replicate (by decide) _)) (cons (by decide) (cons (by decide) nil))
  · split
    · exact append (subset h (List.take_subset _ _)) (cons (by decide) (subset h (List.drop_subset _ _)))
    · exact append (cons (by decide) (cons (by decide) (replicate (by decide) _))) h

theorem unbroken_exponentChars (e : Int) : Unbroken (exponentChars e) := by
  unfold exponentChars
  dsimp only
  refine append (cons ?_ (replicate (by decide) _)) (toDigits _)
  split <;> decide

theorem unbroken_scientific {digits : List Char} (h : Unbroken digits) (exponent : Int) :
    Unbroken (scientific digits exponent) := by
  have hend : ∀ e : Int, Unbroken ('e' :: exponentChars e) := fun e => cons (by decide) (unbroken_exponentChars e)
  unfold scientific
  dsimp only
  split
  · obtain ⟨hd, hds⟩ := List.forall_mem_cons.1 h
    exact append (cons hd (cons (by decide) hds)) (hend _)
  · exact append h (hend _)

theorem unbroken_magnitudeChars (bits : Nat) : Unbroken (magnitudeChars bits) := by
  unfold magnitudeChars Scaled.chars
  dsimp only
  split
  · decide
  · split
    · decide
    · split
      · exact unbroken_positional (toDigits _) _
      · exact unbroken_scientific (toDigits _) _

theorem magnitudeChars_ne_nil (bits : Nat) : magnitudeChars bits ≠ [] := by
  unfold magnitudeChars Scaled.chars positional scientific
  dsimp only
  repeat' split
  all_goals simp

theorem isToken_floatText (x : Float) : Tree.isToken (floatText x) = true := by
  unfold floatText floatChars
  split
  · decide
  · refine Tree.isToken_ofList (List.append_ne_nil_of_right_ne_nil _ (magnitudeChars_ne_nil _))
      (append ?_ (unbroken_magnitudeChars _))
    split
    · exact cons (by decide) nil
    · exact nil

end Number

/-! ## Code -/

namespace Tree

theorem ofToken_of_isToken {s : String} (h : isToken s = true) : ofToken s = .ok (.atom s) := by
  have hne : s.isEmpty = false := by
    rw [isToken, Bool.and_eq_true, Bool.not_eq_true'] at h
    exact h.1
  rw [ofToken, hne, h]
  rfl

theorem wellFormed_integer (n : Int) : (integer n).WellFormed := wellFormed_atom.2 (Number.isToken_repr n)

theorem wellFormed_ofFloat (x : Float) : (ofFloat x).WellFormed := wellFormed_atom.2 (Number.isToken_floatText x)

theorem wellFormed_ofBoolean (b : Bool) : (ofBoolean b).WellFormed := by cases b <;> decide

end Tree

/-- What is asked of an item of a stack: a name has to be a token, and the tokens of a tree too. -/
def Kind.Spelled : (k : Kind) → k.Item → Prop
  | .name, s => Tree.isToken s = true
  | .exec, t => t.WellFormed
  | .code, t => t.WellFormed
  | _,     _ => True

/-- Whether an item can be written: only an integer may be too long for that. -/
def Kind.writes : (k : Kind) → k.Item → Bool
  | .integer, n => Number.isWritable n
  | _,        _ => true

theorem Kind.eq_integer_of_writes {k : Kind} {x : k.Item} (h : k.writes x = false) : k = .integer := by
  cases k with
  | integer => rfl
  | float | boolean | name | exec | code => cases h

/-- **The code of an item that is spelled right is spelled right.** -/
theorem Tree.wellFormed_of_ofItem {k : Kind} {x : k.Item} (h : k.Spelled x) {t : Tree} (ht : ofItem k x = .ok t) :
    t.WellFormed := by
  cases k with
  | integer =>
    obtain ⟨-, rfl⟩ := ofInteger_eq_ok_iff.1 ht
    exact wellFormed_integer x
  | float => cases ht; exact wellFormed_ofFloat x
  | boolean => cases ht; exact wellFormed_ofBoolean x
  | name =>
    rw [ofItem, ofToken_of_isToken h] at ht
    cases ht
    exact wellFormed_atom.2 h
  | exec | code => cases ht; exact h

/-- An item that is no name has code, unless it cannot be written. -/
theorem Tree.ofItem_cases {k : Kind} (hk : k ≠ .name) (x : k.Item) :
    (∃ t, ofItem k x = .ok t) ∨ k.writes x = false ∧ ofItem k x = .error .integerTooLong := by
  cases k with
  | integer =>
    cases hw : Number.isWritable x with
    | true => exact .inl ⟨_, ofInteger_of_writable hw⟩
    | false => exact .inr ⟨hw, ofInteger_of_not_writable hw⟩
  | name => exact absurd rfl hk
  | float | boolean | exec | code => exact .inl ⟨_, rfl⟩

/-- **An item that is spelled right has no code only if it cannot be written.** -/
theorem Tree.ofItem_eq_error_iff {k : Kind} {x : k.Item} (h : k.Spelled x) {f : Fault} :
    ofItem k x = .error f ↔ k.writes x = false ∧ .integerTooLong = f := by
  have hok : ∀ {t : Tree}, ofItem k x = .ok t → k.writes x = true →
      (ofItem k x = .error f ↔ k.writes x = false ∧ .integerTooLong = f) := fun ht hw => by simp [ht, hw]
  cases k with
  | integer => exact ofInteger_eq_error_iff
  | name => exact hok (ofToken_of_isToken h) rfl
  | float | boolean | exec | code => exact hok rfl rfl

namespace Instruction

theorem unbroken_operation (i : Instruction) : Unbroken i.operation.toList := by
  cases i with
  | stack k op =>
    have hop : ∀ op : StackOp, Unbroken op.label.toList := by intro op; cases op <;> decide +kernel
    exact hop op
  | integer op => cases op <;> decide +kernel
  | float op   => cases op <;> decide +kernel
  | boolean op => cases op <;> decide +kernel
  | name op    => cases op <;> decide +kernel
  | exec op    => cases op <;> decide +kernel
  | code op    => cases op <;> decide +kernel

theorem isToken_token (i : Instruction) : Tree.isToken i.token = true := by
  have hlabel : Unbroken i.kind.label.toList := by cases i.kind <;> decide +kernel
  rw [Tree.isToken_iff, token, String.toList_append, String.toList_append]
  refine ⟨?_, Unbroken.append (Unbroken.append hlabel (by decide)) i.unbroken_operation⟩
  exact List.append_ne_nil_of_left_ne_nil (List.append_ne_nil_of_right_ne_nil _ (by decide)) _

end Instruction

end PushMachine
