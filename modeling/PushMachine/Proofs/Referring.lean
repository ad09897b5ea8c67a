import Mathlib.Data.List.TakeWhile
import PushMachine.Proofs.FloatReading
import PushMachine.Proofs.RandomLeaves
/-!
# What refers to an instruction

A token refers to an instruction only if it has a point and is no number (`classify_eq_instruction`).  So a text
without a point refers to none: names, the texts of integers and booleans, and what becomes of them in lower case
(`pointless_lower`).  The text of a float may have a point, but it is a literal (`floatText_not_instruction`).  The token
of an instruction that is allowed refers to that instruction, so it never aborts (`not_aborts_of_allows`).
-/
namespace PushMachine

/-- There is no point in the text. -/
def Pointless (cs : List Char) : Prop := '.' ∉ cs

instance (cs : List Char) : Decidable (Pointless cs) := inferInstanceAs (Decidable ('.' ∉ cs))

namespace Pointless

theorem nil : Pointless [] := List.not_mem_nil

theorem cons {c : Char} {cs : List Char} (hc : c ≠ '.') (h : Pointless cs) : Pointless (c :: cs) := fun hm =>
  (List.mem_cons.1 hm).elim (fun he => hc he.symm) h

theorem append {as bs : List Char} (ha : Pointless as) (hb : Pointless bs) : Pointless (as ++ bs) := fun hm =>
  (List.mem_append.1 hm).elim ha hb

theorem of_digits {cs : List Char} (h : ∀ c ∈ cs, c.isDigit = true) : Pointless cs := fun hm => by
  have := h '.' hm
  revert this
  decide

end Pointless

/-! ## Lower case -/

namespace Text

/-- No row of the table leads to the point. -/
theorem caseRows_avoid_point : ∀ r ∈ caseRows, (r.last : Int) + r.shift < 0x2E ∨ (0x2E : Int) < r.first + r.shift := by
  decide +kernel

theorem pointless_lowerChar {c : Char} (h : c ≠ '.') : Pointless (lowerChar c) := by
  unfold lowerChar
  split
  · rename_i ha
    have hall : ∀ n < 0x80, Char.ofNat n ≠ '.' → (Char.ofNat n).toLower ≠ '.' := by decide
    exact .cons (Text.of_toNat_lt (P := fun c => c ≠ '.' → c.toLower ≠ '.') hall ha h) .nil
  · split
    · decide
    · split
      · rename_i r hr
        refine .cons (fun he => ?_) .nil
        have havoid := caseRows_avoid_point r (List.mem_of_find?_eq_some hr)
        have hcovers := List.find?_some hr
        simp only [CaseRow.covers, Bool.and_eq_true, decide_eq_true_eq] at hcovers
        -- a number that is no character becomes the character zero, which is no point either
        have hnat : (Char.ofNat (c.toNat + r.shift).toNat).toNat = 0x2E := by rw [he]; rfl
        by_cases hv : (c.toNat + r.shift).toNat.isValidChar
        · rw [Char.ofNat, dif_pos hv] at hnat
          have hself : (c.toNat + r.shift).toNat = 0x2E := hnat
          omega
        · rw [Char.ofNat, dif_neg hv] at hnat
          exact absurd hnat (by decide)
      · exact .cons h .nil

theorem pointless_lowerFrom : ∀ (before cs : List Char), Pointless cs → Pointless (lowerFrom before cs)
  | _,      [],      _ => .nil
  | before, c :: cs, h => by
    have hc : c ≠ '.' := fun he => h (he ▸ List.mem_cons_self)
    have hcs : Pointless cs := fun hm => h (List.mem_cons_of_mem c hm)
    rw [lowerFrom]
    refine .append ?_ (pointless_lowerFrom (c :: before) cs hcs)
    split
    · split <;> decide
    · exact pointless_lowerChar hc

/-- **Lower-casing makes no point.** -/
theorem pointless_lower {s : String} (h : Pointless s.toList) : Pointless (lower s).toList := by
  rw [lower, String.toList_ofList]
  exact pointless_lowerFrom [] _ h

end Text

/-! ## Classification -/

namespace Token

theorem cutAtPoint_eq_none_iff {cs : List Char} : cutAtPoint cs = none ↔ Pointless cs := by
  have hnil : cs.dropWhile (· != '.') = [] ↔ Pointless cs := by
    rw [List.dropWhile_eq_nil_iff]
    exact ⟨fun h hm => absurd (h '.' hm) (by decide), fun h c hc => bne_iff_ne.2 fun he => h (he ▸ hc)⟩
  rw [← hnil, cutAtPoint]
  split <;> (rename_i h; simp [h])

theorem cutAtPoint_append {stack : List Char} (h : Pointless stack) (operation : List Char) :
    cutAtPoint (stack ++ '.' :: operation) = some (stack, operation) := by
  have hall : ∀ c ∈ stack, (c != '.') = true := fun c hc => bne_iff_ne.2 fun he => h (he ▸ hc)
  have hstop : ('.' != '.') = false := by decide
  rw [cutAtPoint, List.dropWhile_append_of_pos hall, List.takeWhile_append_of_pos hall, List.dropWhile_cons,
    List.takeWhile_cons, hstop]
  simp

theorem eq_of_cutAtPoint {cs before after : List Char} (h : cutAtPoint cs = some (before, after)) :
    cs = before ++ '.' :: after ∧ Pointless before := by
  have hsplit := List.takeWhile_append_dropWhile (p := (· != '.')) (l := cs)
  have hhead := List.head?_dropWhile_not (· != '.') cs
  unfold cutAtPoint at h
  split at h
  · cases h
  · rename_i d rest hdrop
    cases h
    rw [hdrop] at hsplit hhead
    have hd : d = '.' := by simpa using hhead
    subst hd
    exact ⟨hsplit.symm, fun hm => absurd (List.mem_takeWhile_imp hm) (by decide)⟩

/-- **A reference is no number, and has a point**: what is before the first one is the stack. -/
theorem classify_eq_instruction {token stack operation : String}
    (h : classify token = .ok (.instruction stack operation)) :
    Number.readFloat? token.toList = none ∧ ∃ before after, cutAtPoint token.toList = some (before, after) ∧
      stack = String.ofList (Text.lowerChars before) ∧ operation = String.ofList (Text.lowerChars after) := by
  unfold classify at h
  split at h
  · cases h
  · cases h
  · split at h
    · cases h
    · cases h
    · rename_i hf
      split at h
      · cases h
      · refine ⟨?_, ?_⟩
        · unfold float? at hf
          split at hf
          · cases hf
          · exact Except.ok.inj hf
        · unfold symbol at h
          split at h
          · rename_i before after hcut
            cases h
            exact ⟨before, after, hcut, rfl, rfl⟩
          · cases h

theorem not_instruction_of_pointless {token : String} (h : Pointless token.toList) (stack operation : String) :
    classify token ≠ .ok (.instruction stack operation) := by
  intro hc
  obtain ⟨-, before, after, hcut, -⟩ := classify_eq_instruction hc
  rw [cutAtPoint_eq_none_iff.2 h] at hcut
  cases hcut

theorem pointless_of_classify {token name : String} (h : classify token = .ok (.name name)) :
    Pointless name.toList := by
  have hsymbol : symbol token = .name name := by
    unfold classify at h
    split at h
    · cases h
    · cases h
    · split at h
      · cases h
      · cases h
      · split at h
        · cases h
        · exact Except.ok.inj h
  unfold symbol at hsymbol
  split at hsymbol
  · cases hsymbol
  · rename_i hcut
    cases hsymbol
    exact Text.pointless_lower (cutAtPoint_eq_none_iff.1 hcut)

end Token

/-! ## The texts of values -/

namespace Number

theorem pointless_repr (n : Int) : Pointless n.repr.toList := by
  rw [toList_repr, integerChars]
  refine .append ?_ (.of_digits isDigit_of_mem_toDigits)
  split <;> decide

end Number

/-- **The text of a float refers to no instruction.** -/
theorem Token.floatText_not_instruction (x : Float) (stack operation : String) :
    classify (Number.floatText x) ≠ .ok (.instruction stack operation) := by
  rw [classify_floatText]
  intro hc
  cases hc

/-! ## The tokens of instructions -/

namespace Instruction

theorem pointless_label (k : Kind) : Pointless k.label.toList := by cases k <;> decide

theorem lower_label (k : Kind) : Text.lowerChars k.label.toList = k.label.toList := by cases k <;> decide +kernel

/-- Operations are named in small letters. -/
theorem lower_operation (i : Instruction) : Text.lowerChars i.operation.toList = i.operation.toList := by
  cases i with
  | stack k op =>
    have hop : ∀ op : StackOp, Text.lowerChars op.label.toList = op.label.toList := by
      intro op
      cases op <;> decide +kernel
    exact hop op
  | integer op => cases op <;> decide +kernel
  | float op   => cases op <;> decide +kernel
  | boolean op => cases op <;> decide +kernel
  | name op    => cases op <;> decide +kernel
  | exec op    => cases op <;> decide +kernel
  | code op    => cases op <;> decide +kernel

theorem toList_token (i : Instruction) : i.token.toList = i.kind.label.toList ++ '.' :: i.operation.toList := by
  rw [token, String.toList_append, String.toList_append, List.append_assoc]
  rfl

theorem classify_token {i : Instruction} {stack operation : String}
    (h : Token.classify i.token = .ok (.instruction stack operation)) :
    stack = i.kind.label ∧ operation = i.operation := by
  obtain ⟨-, before, after, hcut, rfl, rfl⟩ := Token.classify_eq_instruction h
  rw [toList_token, Token.cutAtPoint_append (pointless_label i.kind)] at hcut
  cases hcut
  rw [lower_label, lower_operation, String.ofList_toList, String.ofList_toList]
  exact ⟨rfl, rfl⟩

end Instruction

namespace Options

/-- Executing the token aborts. -/
def Aborts (o : Options) (token : String) (a : Abort) : Prop :=
  ∃ stack operation, Token.classify token = .ok (.instruction stack operation) ∧
    o.resolve stack operation token = .error a

variable {o : Options} {a : Abort}

/-- Where the stack of an instruction is there, its token aborts only for not being among those allowed. -/
theorem aborts_token {i : Instruction} (hi : i ∈ Instruction.all) (he : o.enables i.kind = true)
    (h : o.Aborts i.token a) :
    a = .unknownInstruction i.kind.label i.operation i.token ∧ o.instructions ≠ [] ∧ i.token ∉ o.instructions := by
  obtain ⟨stack, operation, hc, hr⟩ := h
  obtain ⟨rfl, rfl⟩ := Instruction.classify_token hc
  rcases (o.resolve_eq_error_iff _ _ _ _).1 hr with ⟨hno, -⟩ | ⟨-, hno, rfl⟩
  · exact absurd ⟨i.kind, rfl, he⟩ hno
  · have hnot : o.instructionEnabled i.kind.label i.operation ≠ true := fun hen =>
      hno ⟨i, hi, rfl, rfl, by rw [allows, he, hen]; rfl⟩
    rw [instructionEnabled, Ne, Bool.or_eq_true, List.isEmpty_iff, List.contains_iff_mem, not_or] at hnot
    exact ⟨rfl, hnot⟩

/-- **The token of an instruction that is allowed never aborts.** -/
theorem not_aborts_of_allows {i : Instruction} (hi : i ∈ Instruction.all) (ha : o.allows i = true) :
    ¬ o.Aborts i.token a := by
  intro h
  obtain ⟨he, hen⟩ := Bool.and_eq_true_iff.1 ha
  obtain ⟨-, hne, hnot⟩ := aborts_token hi he h
  rw [instructionEnabled, Bool.or_eq_true, List.isEmpty_iff, List.contains_iff_mem] at hen
  exact hen.elim hne hnot

theorem not_aborts_of_pointless {token : String} (h : Pointless token.toList) : ¬ o.Aborts token a := by
  rintro ⟨stack, operation, hc, -⟩
  exact Token.not_instruction_of_pointless h stack operation hc

theorem not_aborts_floatText (x : Float) : ¬ o.Aborts (Number.floatText x) a := by
  rintro ⟨stack, operation, hc, -⟩
  exact Token.floatText_not_instruction x stack operation hc

end Options

theorem Supply.IsMinted.pointless {name : String} (h : Supply.IsMinted name) : Pointless name.toList := by
  obtain ⟨letters, rfl, -, hsmall⟩ := h
  rw [String.toList_ofList]
  refine .cons (by decide) fun hm => ?_
  exact absurd (hsmall '.' hm).1 (by decide)

end PushMachine
