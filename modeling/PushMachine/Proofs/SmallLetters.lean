import PushMachine.Proofs.CaseFolding
import PushMachine.Proofs.Referring
/-!
# Names in small letters

A character is settled if lower-casing leaves it as it is.  The table leads to settled characters only, so lower-casing
twice is lower-casing once (`lower_lower`).  It happens after a token was classified; the lower case of a name is still
a name (`classify_lower`), because a letter that the table brings into ASCII is in no word for a number: a text that
becomes one by lower-casing was one before, up to the case of the letters A to Z.
-/
namespace PushMachine
namespace Text

/-! ## Lower-casing twice -/

/-- Lower-casing leaves the character as it is. -/
def Settled (c : Char) : Prop := c ≠ capitalSigma ∧ lowerChar c = [c]

instance (c : Char) : Decidable (Settled c) := inferInstanceAs (Decidable (c ≠ capitalSigma ∧ lowerChar c = [c]))

/-- No small letter of the one row is a capital letter of the other: their ranges are apart, or small and capital
letters take turns.  Written with numbers that a proof can compute with for all pairs of rows. -/
def CaseRow.clears (r r' : CaseRow) : Bool :=
  Nat.blt (r.last + r.shift).toNat r'.first || Nat.blt r'.last (r.first + r.shift).toNat ||
    (r'.stride == 2 && (r.stride == 2 || r.first == r.last) && ((r.first : Int) + r.shift - r'.first) % 2 == 1)

theorem caseRows_clear : (caseRows.all fun r => caseRows.all r.clears) = true := by decide +kernel

/-- Where the rows lead: one to the k, the others out of ASCII, and none to an odd i or a capital sigma. -/
theorem caseRows_targets : ∀ r ∈ caseRows,
    ((r.first : Int) + r.shift = 0x6B ∧ (r.last : Int) + r.shift = 0x6B) ∨
      (0x80 ≤ r.first + r.shift ∧ ((r.last : Int) + r.shift < 0x130 ∨ 0x131 < r.first + r.shift) ∧
        ((r.last : Int) + r.shift < 0x3A3 ∨ 0x3A3 < r.first + r.shift)) := by
  decide +kernel

theorem CaseRow.covers_iff {r : CaseRow} {n : Nat} :
    r.covers n = true ↔ r.first ≤ n ∧ n ≤ r.last ∧ (n - r.first) % r.stride = 0 := by
  simp [covers, and_assoc]

theorem CaseRow.not_covers_of_clears {r r' : CaseRow} (h : r.clears r' = true) (hpos : 0 ≤ r.first + r.shift) {n : Nat}
    (hn : r.covers n = true) : r'.covers (n + r.shift).toNat = false := by
  obtain ⟨hfirst, hlast, hstride⟩ := covers_iff.1 hn
  refine Bool.eq_false_iff.2 fun hc => ?_
  obtain ⟨hfirst', hlast', hstride'⟩ := covers_iff.1 hc
  simp only [clears, Bool.or_eq_true, Bool.and_eq_true, Nat.blt_eq, beq_iff_eq] at h
  rcases h with (h | h) | ⟨⟨htwo, hone⟩, hodd⟩
  · omega
  · omega
  · rw [htwo] at hstride'
    rcases hone with htwo' | hsingle
    · rw [htwo'] at hstride
      omega
    · omega

/-- What a number stands for, or the character zero if it stands for none. -/
theorem toNat_ofNat (n : Nat) : (Char.ofNat n).toNat = n ∨ Char.ofNat n = Char.ofNat 0 := by
  by_cases hv : n.isValidChar
  · exact .inl (by rw [Char.ofNat, dif_pos hv]; rfl)
  · exact .inr (by rw [Char.ofNat, dif_neg hv]; rfl)

theorem settled_of_row {c : Char} {r : CaseRow} (h : caseRows.find? (·.covers c.toNat) = some r) :
    Settled (Char.ofNat (c.toNat + r.shift).toNat) := by
  have hr := List.mem_of_find?_eq_some h
  have hcovers := List.find?_some h
  obtain ⟨hfirst, hlast, -⟩ := CaseRow.covers_iff.1 hcovers
  have htargets := caseRows_targets r hr
  rcases toNat_ofNat (c.toNat + r.shift).toNat with hnat | hzero
  · by_cases hk : (c.toNat + r.shift).toNat = 0x6B
    · rw [hk]
      decide
    · have hnone : caseRows.find? (·.covers (c.toNat + r.shift).toNat) = none := by
        refine List.find?_eq_none.2 fun r' hr' => ?_
        have hclear := List.all_eq_true.1 (List.all_eq_true.1 caseRows_clear r hr) r' hr'
        rw [CaseRow.not_covers_of_clears hclear (by omega) hcovers]
        exact Bool.false_ne_true
      constructor
      · intro hsigma
        rw [hsigma] at hnat
        have hsigma : capitalSigma.toNat = 0x3A3 := rfl
        omega
      · rw [lowerChar, hnat, if_neg (by omega), if_neg (by omega), hnone]
  · rw [hzero]
    decide

/-- **The lower case of a character is settled.** -/
theorem settled_lowerChar {c : Char} (hc : c ≠ capitalSigma) : ∀ d ∈ lowerChar c, Settled d := by
  unfold lowerChar
  split
  · rename_i ha
    have hall : ∀ n < 0x80, Settled (Char.ofNat n).toLower := by decide
    exact List.forall_mem_singleton.2 (of_toNat_lt (P := fun c => Settled c.toLower) hall ha)
  · rename_i ha
    split
    · exact List.forall_mem_cons.2 ⟨by decide, List.forall_mem_singleton.2 (by decide +kernel)⟩
    · rename_i hdotted
      split
      · rename_i r hr
        exact List.forall_mem_singleton.2 (settled_of_row hr)
      · rename_i hnone
        refine List.forall_mem_singleton.2 ⟨hc, ?_⟩
        rw [lowerChar, if_neg ha, if_neg hdotted, hnone]

theorem settled_lowerFrom : ∀ before cs : List Char, ∀ d ∈ lowerFrom before cs, Settled d
  | _,      []      => List.forall_mem_nil _
  | before, c :: cs => by
    rw [lowerFrom]
    refine List.forall_mem_append.2 ⟨?_, settled_lowerFrom (c :: before) cs⟩
    split
    · split <;> exact List.forall_mem_singleton.2 (by decide +kernel)
    · rename_i hc
      exact settled_lowerChar hc

theorem lowerFrom_of_settled : ∀ before cs : List Char, (∀ c ∈ cs, Settled c) → lowerFrom before cs = cs
  | _,      [],      _ => rfl
  | before, c :: cs, h => by
    obtain ⟨hc, hcs⟩ := List.forall_mem_cons.1 h
    rw [lowerFrom, if_neg hc.1, hc.2, lowerFrom_of_settled (c :: before) cs hcs]
    rfl

/-- **Lower-casing twice is lower-casing once.** -/
theorem lower_lower (s : String) : lower (lower s) = lower s := by
  rw [lower, lowerChars, lowerFrom_of_settled]
  · rw [String.ofList_toList]
  · rw [lower, String.toList_ofList]
    exact settled_lowerFrom [] _

end Text

/-! ## Characters of numbers -/

namespace Token

/-- The characters that numbers are written with, words for numbers and those that only pass for one included. -/
def isNumeric (c : Char) : Bool :=
  c.isDigit || ['+', '-', '.'].contains c || ['e', 'i', 'n', 'f', 't', 'y', 'a'].contains (foldI c)

theorem isNumeric_of_isDigit {c : Char} (h : c.isDigit = true) : isNumeric c = true := by
  rw [isNumeric, h]
  rfl

theorem isNumeric_of_isSign {cs : List Char} (h : IsSign cs) : ∀ c ∈ cs, isNumeric c = true := by
  rcases h with rfl | rfl | rfl
  · exact List.forall_mem_nil _
  · exact List.forall_mem_singleton.2 (by decide)
  · exact List.forall_mem_singleton.2 (by decide)

/-- What follows the sign decides. -/
theorem isNumeric_of_cutSign {cs : List Char} (h : ∀ c ∈ (Number.cutSign cs).2, isNumeric c = true) :
    ∀ c ∈ cs, isNumeric c = true := by
  obtain ⟨sign, hs, hcs, -⟩ := exists_sign cs
  rw [hcs]
  exact List.forall_mem_append.2 ⟨isNumeric_of_isSign hs, h⟩

theorem isNumeric_of_allDigits {cs : List Char} (h : Number.allDigits cs = true) : ∀ c ∈ cs, isNumeric c = true :=
  fun c hc => isNumeric_of_isDigit ((Number.allDigits_iff.1 h).2 c hc)

theorem isNumeric_of_readInteger {cs : List Char} (h : Number.readInteger cs ≠ .none) :
    ∀ c ∈ cs, isNumeric c = true := by
  refine isNumeric_of_cutSign (isNumeric_of_allDigits ?_)
  by_contra hall
  refine h ?_
  simp [Number.readInteger, hall]

theorem isNumeric_of_word {cs : List Char} {word : List Char} (h : cs.map foldI = word)
    (hword : word.all ['e', 'i', 'n', 'f', 't', 'y', 'a'].contains = true) : ∀ c ∈ cs, isNumeric c = true := by
  intro c hc
  have hfold := List.all_eq_true.1 hword (foldI c) (by rw [← h]; exact List.mem_map_of_mem hc)
  rw [isNumeric, hfold, Bool.or_true]

theorem isNumeric_of_oddInfinity {token : String} (h : OddInfinity token) : ∀ c ∈ token.toList, isNumeric c = true := by
  obtain ⟨sign, word, hcs, hs, hinf, -⟩ := h
  rw [hcs]
  refine List.forall_mem_append.2 ⟨isNumeric_of_isSign hs, ?_⟩
  rcases hinf with hinf | hinf <;> exact isNumeric_of_word hinf (by decide)

theorem isNumeric_of_readExponent? {cs : List Char} {e : Int} (h : Number.readExponent? cs = some e) :
    ∀ c ∈ cs, isNumeric c = true := by
  cases cs with
  | nil => exact List.forall_mem_nil _
  | cons c cs =>
    simp only [Number.readExponent?] at h
    split at h
    · rename_i hmark
      rw [Bool.and_eq_true, Bool.or_eq_true, decide_eq_true_eq, decide_eq_true_eq] at hmark
      refine List.forall_mem_cons.2 ⟨?_, isNumeric_of_cutSign (isNumeric_of_allDigits hmark.2)⟩
      rcases hmark.1 with rfl | rfl <;> decide
    · cases h

theorem isNumeric_of_takeWhile {cs : List Char} (h : ∀ c ∈ cs.dropWhile Char.isDigit, isNumeric c = true) :
    ∀ c ∈ cs, isNumeric c = true := by
  rw [← List.takeWhile_append_dropWhile (p := Char.isDigit) (l := cs)]
  refine List.forall_mem_append.2 ⟨fun c hc => isNumeric_of_isDigit ?_, h⟩
  exact List.all_eq_true.1 List.all_takeWhile c hc

theorem isNumeric_of_readDecimal? {negative : Bool} {cs : List Char} {d : Number.Decimal}
    (h : Number.readDecimal? negative cs = some d) : ∀ c ∈ cs, isNumeric c = true := by
  have hexponent : ∃ e, Number.readExponent? (Number.cutPoint cs).2.2 = some e := by
    simp only [Number.readDecimal?] at h
    split at h
    · cases h
    · obtain ⟨e, he, -⟩ := Option.map_eq_some_iff.1 h
      exact ⟨e, he⟩
  obtain ⟨e, he⟩ := hexponent
  have hrest := isNumeric_of_readExponent? he
  refine isNumeric_of_takeWhile ?_
  unfold Number.cutPoint at hrest
  split at hrest
  · rename_i r hr
    rw [hr]
    exact List.forall_mem_cons.2 ⟨by decide, isNumeric_of_takeWhile hrest⟩
  · exact hrest

theorem isNumeric_of_readWord? {negative : Bool} {cs : List Char} {x : Float}
    (h : Number.readWord? negative cs = some x) : ∀ c ∈ cs, isNumeric c = true := by
  have hword : ∀ word : List Char, cs.map Char.toLower = word →
      word.all ['e', 'i', 'n', 'f', 't', 'y', 'a'].contains = true → ∀ c ∈ cs, isNumeric c = true := by
    intro word he hall c hc
    have hlow := List.all_eq_true.1 hall c.toLower (by rw [← he]; exact List.mem_map_of_mem hc)
    rw [isNumeric, foldI]
    split
    · simp
    · rw [hlow, Bool.or_true]
  simp only [Number.readWord?] at h
  split at h
  · rename_i hinf
    rcases hinf with hinf | hinf <;> exact hword _ hinf (by decide)
  · split at h
    · rename_i hnan
      exact hword _ hnan (by decide)
    · cases h

theorem isNumeric_of_readFloat? {cs : List Char} {x : Float} (h : Number.readFloat? cs = some x) :
    ∀ c ∈ cs, isNumeric c = true := by
  refine isNumeric_of_cutSign ?_
  simp only [Number.readFloat?] at h
  split at h
  · rename_i d hd
    exact isNumeric_of_readDecimal? hd
  · exact isNumeric_of_readWord? h

/-! ## Names -/

theorem symbol_eq_name_iff {token name : String} :
    symbol token = .name name ↔ Pointless token.toList ∧ name = Text.lower token := by
  rw [← cutAtPoint_eq_none_iff, symbol]
  cases cutAtPoint token.toList with
  | none => simp [eq_comm]
  | some halves => simp

/-- **What is a name**: no number, no boolean, and without a point. -/
theorem classify_eq_name_iff {token name : String} :
    classify token = .ok (.name name) ↔ integer? token = .ok none ∧ float? token = .ok none ∧ boolean? token = none ∧
      Pointless token.toList ∧ name = Text.lower token := by
  rw [classify]
  split
  · rename_i f hi
    simp [hi]
  · rename_i n hi
    simp [hi]
  · rename_i hi
    split
    · rename_i f hf
      simp [hi, hf]
    · rename_i x hf
      simp [hi, hf]
    · rename_i hf
      split
      · rename_i b hb
        simp [hi, hf, hb]
      · rename_i hb
        simp [hi, hf, hb, symbol_eq_name_iff]

/-- A text with a character that is in no number is no number. -/
theorem classify_of_not_numeric {s : String} (hn : ∃ c ∈ s.toList, isNumeric c = false) (hb : boolean? s = none)
    (hp : Pointless s.toList) : classify s = .ok (.name (Text.lower s)) := by
  obtain ⟨c, hc, hnot⟩ := hn
  have hall : ¬ ∀ c ∈ s.toList, isNumeric c = true := fun hall => by
    rw [hall c hc] at hnot
    cases hnot
  refine classify_eq_name_iff.2 ⟨?_, ?_, hb, hp, rfl⟩
  · have hnone : Number.readInteger s.toList = .none := by
      by_contra hne
      exact hall (isNumeric_of_readInteger hne)
    rw [integer?, hnone]
  · have hodd : isOddWord s.toList ≠ true := fun hodd => hall (isNumeric_of_oddInfinity (isOddWord_iff.1 hodd))
    have hnone : Number.readFloat? s.toList = none := by
      cases hx : Number.readFloat? s.toList with
      | none => rfl
      | some x => exact absurd (isNumeric_of_readFloat? hx) hall
    rw [float?, if_neg hodd, hnone]

/-! ### The lower case of a name -/

theorem toLower_of_not_ascii {c : Char} (h : ¬ c.toNat < 0x80) : c.toLower = c := by
  refine dif_neg fun hletter => h ?_
  exact Nat.lt_of_le_of_lt (UInt32.le_iff_toNat_le.1 hletter.2) (by decide)

theorem not_numeric_of_not_ascii {c : Char} (ha : ¬ c.toNat < 0x80) (hodd : isOddI c = false) :
    isNumeric c = false := by
  have hne : ∀ d : Char, d.toNat < 0x80 → c ≠ d := fun d hd he => ha (he ▸ hd)
  have hdigit : c.isDigit = false := Bool.eq_false_iff.2 fun hd => by
    have hnine : c.toNat ≤ 57 := (Char.isDigit_iff_toNat.1 hd).2
    omega
  have hfold : foldI c = c := by
    rw [foldI, hodd]
    exact toLower_of_not_ascii ha
  simp [isNumeric, hdigit, hfold, hne]

/-- No row of the table leads to a character of a number. -/
theorem not_numeric_of_row {c : Char} {r : Text.CaseRow} (h : Text.caseRows.find? (·.covers c.toNat) = some r) :
    isNumeric (Char.ofNat (c.toNat + r.shift).toNat) = false := by
  have htargets := Text.caseRows_targets r (List.mem_of_find?_eq_some h)
  have hcovers := List.find?_some h
  obtain ⟨hfirst, hlast, -⟩ := Text.CaseRow.covers_iff.1 hcovers
  rcases Text.toNat_ofNat (c.toNat + r.shift).toNat with hnat | hzero
  · by_cases hk : (c.toNat + r.shift).toNat = 0x6B
    · rw [hk]
      decide
    · refine not_numeric_of_not_ascii (by omega) ?_
      rw [isOddI, hnat, Bool.or_eq_false_iff, beq_eq_false_iff_ne, beq_eq_false_iff_ne]
      omega
  · rw [hzero]
    decide

theorem lowerChar_of_numeric {c : Char} (h : ∀ d ∈ Text.lowerChar c, isNumeric d = true) :
    Text.lowerChar c = [c.toLower] := by
  unfold Text.lowerChar at h ⊢
  split
  · rfl
  · rename_i ha
    rw [if_neg ha] at h
    split
    · rename_i hdotted
      rw [if_pos hdotted] at h
      -- the dot that the dotted capital I leaves behind is in no number
      exact absurd (h (Char.ofNat 0x307) (by simp)) (by decide)
    · rename_i hdotted
      rw [if_neg hdotted] at h
      split
      · rename_i r hr
        rw [hr] at h
        have hnot := not_numeric_of_row hr
        rw [h _ (List.mem_singleton.2 rfl)] at hnot
        cases hnot
      · rw [toLower_of_not_ascii ha]

/-- Lower-casing that ends at the characters of numbers only makes the letters A to Z small. -/
theorem lowerFrom_of_numeric : ∀ before cs : List Char, (∀ d ∈ Text.lowerFrom before cs, isNumeric d = true) →
    Text.lowerFrom before cs = cs.map Char.toLower
  | _,      [],      _ => rfl
  | before, c :: cs, h => by
    rw [Text.lowerFrom] at h ⊢
    obtain ⟨hc, hcs⟩ := List.forall_mem_append.1 h
    rw [lowerFrom_of_numeric (c :: before) cs hcs, List.map_cons]
    split
    · -- neither small sigma is in a number
      rename_i hsigma
      rw [if_pos hsigma, List.forall_mem_singleton] at hc
      have hnot : isNumeric (if Text.endsWord before cs then 'ς' else 'σ') = false := by split <;> decide
      rw [hc] at hnot
      cases hnot
    · rename_i hsigma
      rw [if_neg hsigma] at hc
      rw [lowerChar_of_numeric hc]
      rfl

/-- **The lower case of a name is that name**, to whatever token it belongs. -/
theorem classify_lower {token name : String} (h : classify token = .ok (.name name)) :
    classify name = .ok (.name name) := by
  obtain ⟨-, -, hb, hp, rfl⟩ := classify_eq_name_iff.1 h
  by_cases hn : ∀ c ∈ (Text.lower token).toList, isNumeric c = true
  · -- then only the case of the letters A to Z differs
    have hfold : Text.lower token = Text.foldCase token := by
      rw [Text.lower, String.toList_ofList] at hn
      rw [Text.lower, Text.foldCase, Text.lowerChars, lowerFrom_of_numeric [] _ hn]
    have hmeaning := meaning?_foldCase token
    rw [← hfold, meaning?, meaning?, h] at hmeaning
    cases hc : classify (Text.lower token) with
    | error f => rw [hc] at hmeaning; cases hmeaning
    | ok meaning => rw [hc] at hmeaning; cases hmeaning; rfl
  · have hsome : ∃ c ∈ (Text.lower token).toList, isNumeric c = false := by simpa using hn
    have hbool : boolean? (Text.lower token) = none := by
      rw [boolean?, Text.lower_lower]
      exact hb
    rw [classify_of_not_numeric hsome hbool (Text.pointless_lower hp), Text.lower_lower]

end Token
end PushMachine
