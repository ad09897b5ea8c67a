import PushMachine.Proofs.FloatReading
import PushMachine.Proofs.Json.Grammar
/-!
# Which documents are printed as JSON

Strings, integers and finite floats are printed in the grammar of JSON, whatever characters and numbers they hold.  A
float that is not finite is a word with one of the letters I and N outside of strings.  So the text of a document is
JSON exactly if all its floats are finite (`isText_text_iff`).
-/
namespace PushMachine
namespace Json

open Text (quotationMark backslash)

/-! ## Strings -/

theorem isHexDigit_digitChar : ∀ n < 16, IsHexDigit (Nat.digitChar n) := by
  unfold IsHexDigit
  decide

theorem isHexDigit_of_mem_toDigits {n : Nat} : ∀ c ∈ Nat.toDigits 16 n, IsHexDigit c := by
  induction n using Nat.strongRecOn with
  | ind n ih =>
    by_cases hn : n < 16
    · rw [Nat.toDigits_of_lt_base hn]
      exact List.forall_mem_singleton.2 (isHexDigit_digitChar n hn)
    · rw [Nat.toDigits_of_base_le (by decide) (Nat.not_lt.1 hn)]
      have hrest := ih (n / 16) (Nat.div_lt_self (by omega) (by decide))
      exact List.forall_mem_append.2
        ⟨hrest, List.forall_mem_singleton.2 (isHexDigit_digitChar _ (Nat.mod_lt _ (by decide)))⟩

theorem stringUnit_hexEscape {n : Nat} (h : n < 0x10000) : StringUnit (hexEscape n) := by
  have hlength : (Nat.toDigits 16 n).length ≤ 4 := (Nat.length_toDigits_le_iff (by decide) (by decide)).2 h
  refine .code ?_ fun c hc => ?_
  · rw [Text.hexDigits, List.length_append, List.length_replicate]
    omega
  · rcases List.mem_append.1 hc with hc | hc
    · rw [List.eq_of_mem_replicate hc]
      exact .inl (by decide)
    · exact isHexDigit_of_mem_toDigits c hc

theorem StringBody.append {as bs : List Char} (ha : StringBody as) (hb : StringBody bs) : StringBody (as ++ bs) := by
  induction ha with
  | nil => exact hb
  | cons hunit _ ih => rw [List.append_assoc]; exact .cons hunit ih

theorem StringUnit.body {unit : List Char} (h : StringUnit unit) : StringBody unit := by
  have hbody := StringBody.cons h .nil
  rwa [List.append_nil] at hbody

/-- One unit, or two for a character beyond the first plane. -/
theorem stringBody_escapeChar (c : Char) : StringBody (escapeChar c) := by
  have hescape {d : Char} (h : d ∈ [quotationMark, backslash, '/', 'b', 'f', 'n', 'r', 't']) :
      StringBody [backslash, d] := (StringUnit.escape h).body
  unfold escapeChar
  dsimp only
  split
  · rename_i h
    simp only [Bool.or_eq_true, decide_eq_true_eq] at h
    exact hescape (by rcases h with rfl | rfl <;> decide)
  rename_i hmark
  simp only [Bool.or_eq_true, decide_eq_true_eq, not_or] at hmark
  split
  · exact hescape (by decide)
  split
  · exact hescape (by decide)
  split
  · exact hescape (by decide)
  split
  · exact hescape (by decide)
  split
  · exact hescape (by decide)
  split
  · rename_i h
    simp only [Bool.and_eq_true, decide_eq_true_eq] at h
    exact (StringUnit.plain h.1 hmark.1 hmark.2).body
  split
  · rename_i h
    exact (stringUnit_hexEscape h).body
  · have hvalid : c.toNat < 0xD800 ∨ 0xDFFF < c.toNat ∧ c.toNat < 0x110000 := c.valid
    exact (stringUnit_hexEscape (by omega)).body.append (stringUnit_hexEscape (by omega)).body

theorem isString_stringText (s : String) : IsString (stringText s).toList := by
  refine ⟨s.toList.flatMap escapeChar, ?_, by rw [stringText, String.toList_ofList]; rfl⟩
  induction s.toList with
  | nil => exact .nil
  | cons c cs ih => exact (stringBody_escapeChar c).append ih

/-! ## Numbers -/

open Number (isDigit_of_mem_toDigits isDigit_of_mem_replicate)

theorem digits_toDigits (n : Nat) : Digits (Nat.toDigits 10 n) := ⟨Nat.toDigits_ne_nil, isDigit_of_mem_toDigits⟩

/-- The first digit of a positive number is not zero. -/
theorem head?_toDigits {n : Nat} (h : 0 < n) : (Nat.toDigits 10 n).head? ≠ some '0' := by
  induction n using Nat.strongRecOn with
  | ind n ih =>
    by_cases hn : n < 10
    · have hall : ∀ k < 10, 0 < k → Nat.digitChar k ≠ '0' := by decide
      rw [Nat.toDigits_of_lt_base hn, List.head?_cons, ne_eq, Option.some_inj]
      exact hall n hn h
    · rw [Nat.toDigits_of_base_le (by decide) (Nat.not_lt.1 hn), List.head?_append_of_ne_nil _ Nat.toDigits_ne_nil]
      exact ih (n / 10) (Nat.div_lt_self h (by decide)) (by omega)

theorem digits_zero : Digits ['0'] := ⟨by decide, List.forall_mem_singleton.2 (by decide)⟩

theorem isWhole_toDigits (n : Nat) : IsWhole (Nat.toDigits 10 n) := by
  rcases Nat.eq_zero_or_pos n with rfl | h
  · exact .inl rfl
  · exact .inr ⟨digits_toDigits n, head?_toDigits h⟩

theorem toList_repr (n : Nat) : n.repr.toList = Nat.toDigits 10 n := by
  rw [Nat.repr_eq_ofList_toDigits, String.toList_ofList]

theorem isNumber_integerText (n : Int) : IsNumber (integerText n).toList := by
  unfold integerText
  split
  · refine ⟨['-'], _, [], [], by decide, isWhole_toDigits n.natAbs, .inl rfl, .inl rfl, ?_⟩
    rw [String.toList_append, toList_repr, List.append_nil, List.append_nil]
    rfl
  · refine ⟨[], _, [], [], by decide, isWhole_toDigits n.natAbs, .inl rfl, .inl rfl, ?_⟩
    rw [toList_repr, List.append_nil, List.append_nil]
    rfl

/-- A number without a sign. -/
def IsMagnitude (cs : List Char) : Prop :=
  ∃ whole fraction exponent, IsWhole whole ∧ IsFraction fraction ∧ IsExponent exponent ∧
    cs = whole ++ (fraction ++ exponent)

theorem isExponent_exponentChars (e : Int) : IsExponent ('e' :: Number.exponentChars e) := by
  refine .inr ⟨'e', [if e < 0 then '-' else '+'], List.replicate _ '0' ++ Nat.toDigits 10 e.natAbs, by decide, ?_,
    ⟨List.append_ne_nil_of_right_ne_nil _ Nat.toDigits_ne_nil,
      List.forall_mem_append.2 ⟨isDigit_of_mem_replicate, isDigit_of_mem_toDigits⟩⟩, rfl⟩
  split <;> decide

section

variable {d : Char} {ds : List Char} (hd : d ≠ '0') (hds : ∀ c ∈ d :: ds, c.isDigit = true)
include hd hds

theorem isWhole_cons {es : List Char} (h : ∀ c ∈ es, c.isDigit = true) : IsWhole (d :: es) :=
  .inr ⟨⟨List.cons_ne_nil _ _, List.forall_mem_cons.2 ⟨hds d List.mem_cons_self, h⟩⟩, by simpa using hd⟩

theorem isMagnitude_positional (exponent : Int) : IsMagnitude (Number.positional (d :: ds) exponent) := by
  have htail : ∀ c ∈ ds, c.isDigit = true := (List.forall_mem_cons.1 hds).2
  unfold Number.positional
  dsimp only
  split
  · have hwhole : IsWhole (d :: (ds ++ List.replicate exponent.toNat '0')) :=
      isWhole_cons hd hds (List.forall_mem_append.2 ⟨htail, isDigit_of_mem_replicate⟩)
    exact ⟨_, ['.', '0'], [], hwhole, .inr ⟨['0'], digits_zero, rfl⟩, .inl rfl, by simp⟩
  · split
    · obtain ⟨k, hk⟩ : ∃ k : Nat, (((d :: ds).length : Int) + exponent).toNat = k + 1 :=
        ⟨_, (Nat.succ_pred (by omega)).symm⟩
      rw [hk, List.take_succ_cons, List.drop_succ_cons]
      have hwhole : IsWhole (d :: ds.take k) := isWhole_cons hd hds fun c hc => htail c (List.mem_of_mem_take hc)
      have hfraction : Digits (ds.drop k) := by
        refine ⟨?_, fun c hc => htail c (List.mem_of_mem_drop hc)⟩
        rw [ne_eq, List.drop_eq_nil_iff]
        rw [List.length_cons] at hk
        omega
      exact ⟨_, _, [], hwhole, .inr ⟨_, hfraction, rfl⟩, .inl rfl, by rw [List.append_nil]⟩
    · generalize (-(((d :: ds).length : Int) + exponent)).toNat = k
      have hfraction : Digits (List.replicate k '0' ++ d :: ds) :=
        ⟨List.append_ne_nil_of_right_ne_nil _ (List.cons_ne_nil _ _),
          List.forall_mem_append.2 ⟨isDigit_of_mem_replicate, hds⟩⟩
      exact ⟨['0'], _, [], .inl rfl, .inr ⟨_, hfraction, rfl⟩, .inl rfl, by rw [List.append_nil]; rfl⟩

theorem isMagnitude_scientific (exponent : Int) : IsMagnitude (Number.scientific (d :: ds) exponent) := by
  have hwhole : IsWhole [d] := isWhole_cons hd hds (List.forall_mem_nil _)
  cases ds with
  | nil => exact ⟨[d], [], _, hwhole, .inl rfl, isExponent_exponentChars _, rfl⟩
  | cons c cs =>
    exact ⟨[d], '.' :: c :: cs, _, hwhole, .inr ⟨c :: cs, ⟨List.cons_ne_nil _ _, (List.forall_mem_cons.1 hds).2⟩, rfl⟩,
      isExponent_exponentChars _, rfl⟩

end

theorem isMagnitude_chars {s : Number.Scaled} (h : 0 < s.digits) : IsMagnitude s.chars := by
  obtain ⟨d, ds, heq⟩ := List.exists_cons_of_ne_nil (Nat.toDigits_ne_nil (b := 10) (n := s.digits))
  have hd : d ≠ '0' := by
    rintro rfl
    exact head?_toDigits h (by rw [heq]; rfl)
  have hds : ∀ c ∈ d :: ds, c.isDigit = true := heq ▸ isDigit_of_mem_toDigits
  unfold Number.Scaled.chars
  dsimp only
  rw [heq]
  split
  · exact isMagnitude_positional hd hds _
  · exact isMagnitude_scientific hd hds _

theorem isMagnitude_magnitudeChars {bits : Nat} (h : bits < Number.infinityBits) :
    IsMagnitude (Number.magnitudeChars bits) := by
  rw [Number.magnitudeChars, if_neg (Nat.ne_of_lt h)]
  split
  · exact ⟨['0'], ['.', '0'], [], .inl rfl, .inr ⟨['0'], digits_zero, rfl⟩, .inl rfl, rfl⟩
  · rename_i hzero
    have henc := Number.Dyadic.encodes_ofBits h
    have hm := henc.mantissa_pos (Nat.pos_of_ne_zero hzero)
    -- the decimal that is written rounds to a positive number
    have hpos := (Number.attracts_shortest henc hm).pos hm
    refine isMagnitude_chars (Nat.pos_of_ne_zero fun hdigits => ?_)
    rw [Number.Scaled.value, hdigits] at hpos
    simp at hpos

theorem isNumber_floatText {x : Float} (h : Number.isFinite x = true) : IsNumber (floatText x).toList := by
  have hlt : Number.magnitudeBits x < Number.infinityBits := by simpa [Number.isFinite] using h
  have hnan : Number.isNan x = false := by
    rw [Number.isNan, decide_eq_false_iff_not]
    omega
  obtain ⟨whole, fraction, exponent, hw, hf, he, heq⟩ := isMagnitude_magnitudeChars hlt
  rw [floatText, hnan, if_neg (by decide), if_pos h, Number.floatText, String.toList_ofList, Number.floatChars, hnan,
    if_neg (by decide), heq]
  refine ⟨_, whole, fraction, exponent, ?_, hw, hf, he, rfl⟩
  split <;> decide

/-! ## Documents -/

mutual

/-- The floats of a document. -/
def floats : Json → List Float
  | .float x    => [x]
  | .array xs   => itemFloats xs
  | .object ms  => memberFloats ms
  | _           => []

def itemFloats : List Json → List Float
  | []      => []
  | x :: xs => floats x ++ itemFloats xs

def memberFloats : List (String × Json) → List Float
  | []           => []
  | (_, v) :: ms => floats v ++ memberFloats ms

end

theorem spaces_newline (level : Nat) : Spaces (newline level).toList := by
  simp only [newline, String.toList_append, String.toList_ofList]
  intro c hc
  rcases List.mem_append.1 hc with hc | hc
  · rw [List.mem_singleton.1 hc]
    decide
  · rw [List.eq_of_mem_replicate hc]
    decide

theorem spaces_nil : Spaces [] := List.forall_mem_nil _

theorem spaces_blank : Spaces [' '] := List.forall_mem_singleton.2 (by decide)

theorem toList_comma : ",".toList = [','] := rfl

theorem toList_colon : ": ".toList = [':', ' '] := rfl

mutual

/-- **A document of finite floats is printed as a value.** -/
theorem isValue_textAt : ∀ (level : Nat) (j : Json), (∀ x ∈ j.floats, Number.isFinite x = true) →
    IsValue (textAt level j).toList
  | _,     .null,      _ => .null
  | _,     .boolean b, _ => by
    cases b
    · exact .false
    · exact .true
  | _,     .integer n, _ => .number (isNumber_integerText n)
  | _,     .float x,   h => .number (isNumber_floatText (h x List.mem_cons_self))
  | _,     .string s,  _ => .string (isString_stringText s)
  | _,     .array [],  _ => by
    rw [textAt]
    exact .emptyArray spaces_nil
  | level, .array (x :: xs), h => by
    obtain ⟨hx, hxs⟩ := List.forall_mem_append.1 h
    have hitems := isItems_itemsAt (level + 1) xs hxs (spaces_newline (level + 1)) (isValue_textAt (level + 1) x hx)
      (spaces_newline level)
    have hvalue := IsValue.array hitems
    rw [textAt]
    simp only [String.toList_append, List.append_assoc] at hvalue ⊢
    exact hvalue
  | _,     .object [], _ => by
    rw [textAt]
    exact .emptyObject spaces_nil
  | level, .object ((k, v) :: ms), h => by
    obtain ⟨hv, hms⟩ := List.forall_mem_append.1 h
    have hmembers := isMembers_membersAt (level + 1) ms hms (spaces_newline (level + 1)) (isString_stringText k)
      (isValue_textAt (level + 1) v hv) (spaces_newline level)
    have hvalue := IsValue.object hmembers
    rw [textAt]
    simp only [String.toList_append, toList_colon, List.append_assoc, List.cons_append, List.nil_append] at hvalue ⊢
    exact hvalue

theorem isItems_itemsAt : ∀ (level : Nat) (xs : List Json), (∀ x ∈ itemFloats xs, Number.isFinite x = true) →
    ∀ {before value after : List Char}, Spaces before → IsValue value → Spaces after →
      IsItems (before ++ (value ++ ((itemsAt level xs).toList ++ after)))
  | _,     [],      _, _, _, _, hb, hv, ha => .one hb hv ha
  | level, x :: xs, h, _, _, _, hb, hv, ha => by
    obtain ⟨hx, hxs⟩ := List.forall_mem_append.1 h
    have hrest := isItems_itemsAt level xs hxs (spaces_newline level) (isValue_textAt level x hx) ha
    have hitems := IsItems.more hb hv spaces_nil hrest
    rw [itemsAt]
    simp only [String.toList_append, toList_comma, List.append_assoc, List.cons_append, List.nil_append] at hitems ⊢
    exact hitems

theorem isMembers_membersAt : ∀ (level : Nat) (ms : List (String × Json)),
    (∀ x ∈ memberFloats ms, Number.isFinite x = true) → ∀ {before name value after : List Char}, Spaces before →
      IsString name → IsValue value → Spaces after →
        IsMembers (before ++ (name ++ ':' :: ' ' :: (value ++ ((membersAt level ms).toList ++ after))))
  | _,     [],           _, _, _, _, _, hb, hn, hv, ha => .one hb hn spaces_nil spaces_blank hv ha
  | level, (k, v) :: ms, h, _, _, _, _, hb, hn, hv, ha => by
    obtain ⟨hx, hms⟩ := List.forall_mem_append.1 h
    have hrest := isMembers_membersAt level ms hms (spaces_newline level) (isString_stringText k)
      (isValue_textAt level v hx) ha
    have hmembers := IsMembers.more hb hn spaces_nil spaces_blank hv spaces_nil hrest
    rw [membersAt]
    simp only [String.toList_append, toList_comma, toList_colon, List.append_assoc, List.cons_append,
      List.nil_append] at hmembers ⊢
    exact hmembers

end

/-! ## What is no JSON -/

theorem piece_floatText (x : Float) : Piece (floatText x).toList (Number.isFinite x = false) := by
  cases hfinite : Number.isFinite x with
  | true => exact (isNumber_floatText hfinite).clean.congr (by simp)
  | false =>
    unfold floatText
    rw [hfinite, if_neg Bool.false_ne_true]
    split
    · exact (Piece.of_unquoted (by decide) (by decide)).congr (iff_of_true ⟨'N', by decide, .inr rfl⟩ rfl)
    · split
      · exact (Piece.of_unquoted (by decide) (by decide)).congr (iff_of_true ⟨'I', by decide, .inl rfl⟩ rfl)
      · exact (Piece.of_unquoted (by decide) (by decide)).congr (iff_of_true ⟨'I', by decide, .inl rfl⟩ rfl)

mutual

/-- **A document shows one of the two letters outside of strings exactly if it has a float that is not finite.** -/
theorem piece_textAt : ∀ (level : Nat) (j : Json),
    Piece (textAt level j).toList (∃ x ∈ j.floats, Number.isFinite x = false)
  | _,     .null      => IsValue.null.clean.congr (by simp [floats])
  | _,     .boolean b => by
    cases b
    · exact IsValue.false.clean.congr (by simp [floats])
    · exact IsValue.true.clean.congr (by simp [floats])
  | _,     .integer n => (isNumber_integerText n).clean.congr (by simp [floats])
  | _,     .float x   => (piece_floatText x).congr (by simp [floats])
  | _,     .string s  => (isString_stringText s).clean.congr (by simp [floats])
  | _,     .array []  => by
    rw [textAt]
    exact (IsValue.emptyArray spaces_nil).clean.congr (by simp [floats, itemFloats])
  | level, .array (x :: xs) => by
    have hopen : Clean "[".toList := clean_of_all (by decide)
    have hclose : Clean "]".toList := clean_of_all (by decide)
    have hitems := ((piece_textAt (level + 1) x).append (piece_itemsAt (level + 1) xs)).append_clean
      ((spaces_newline level).clean.append hclose)
    rw [textAt]
    simp only [String.toList_append, List.append_assoc] at hitems ⊢
    refine (hopen.append_piece ((spaces_newline (level + 1)).clean.append_piece hitems)).congr ?_
    simp only [floats, itemFloats, List.mem_append, or_and_right, exists_or]
  | _,     .object [] => by
    rw [textAt]
    exact (IsValue.emptyObject spaces_nil).clean.congr (by simp [floats, memberFloats])
  | level, .object ((k, v) :: ms) => by
    have hopen : Clean "\x7b".toList := clean_of_all (by decide)
    have hcolon : Clean ": ".toList := clean_of_all (by decide)
    have hclose : Clean "\x7d".toList := clean_of_all (by decide)
    have hmembers := ((piece_textAt (level + 1) v).append (piece_membersAt (level + 1) ms)).append_clean
      ((spaces_newline level).clean.append hclose)
    have hname := (hopen.append (spaces_newline (level + 1)).clean).append ((isString_stringText k).clean.append hcolon)
    rw [textAt]
    have hpiece := hname.append_piece hmembers
    simp only [String.toList_append, List.append_assoc] at hpiece ⊢
    refine hpiece.congr ?_
    simp only [floats, memberFloats, List.mem_append, or_and_right, exists_or]

theorem piece_itemsAt : ∀ (level : Nat) (xs : List Json),
    Piece (itemsAt level xs).toList (∃ x ∈ itemFloats xs, Number.isFinite x = false)
  | _,     []      => Clean.nil.congr (by simp [itemFloats])
  | level, x :: xs => by
    have hcomma : Clean ",".toList := clean_of_all (by decide)
    have hpiece := (hcomma.append (spaces_newline level).clean).append_piece
      ((piece_textAt level x).append (piece_itemsAt level xs))
    rw [itemsAt]
    simp only [String.toList_append, List.append_assoc] at hpiece ⊢
    refine hpiece.congr ?_
    simp only [itemFloats, List.mem_append, or_and_right, exists_or]

theorem piece_membersAt : ∀ (level : Nat) (ms : List (String × Json)),
    Piece (membersAt level ms).toList (∃ x ∈ memberFloats ms, Number.isFinite x = false)
  | _,     []           => Clean.nil.congr (by simp [memberFloats])
  | level, (k, v) :: ms => by
    have hcomma : Clean ",".toList := clean_of_all (by decide)
    have hcolon : Clean ": ".toList := clean_of_all (by decide)
    have hname := (hcomma.append (spaces_newline level).clean).append ((isString_stringText k).clean.append hcolon)
    have hpiece := hname.append_piece ((piece_textAt level v).append (piece_membersAt level ms))
    rw [membersAt]
    simp only [String.toList_append, List.append_assoc] at hpiece ⊢
    refine hpiece.congr ?_
    simp only [memberFloats, List.mem_append, or_and_right, exists_or]

end

/-- **The text of a document, spaces apart, is JSON exactly if all its floats are finite.** -/
theorem isText_text_iff (j : Json) {after : List Char} (ha : Spaces after) :
    IsText ((text j).toList ++ after) ↔ ∀ x ∈ j.floats, Number.isFinite x = true := by
  constructor
  · intro h x hx
    have hnone := ((piece_textAt 0 j).append_clean ha.clean).unique h.clean
    by_contra hfinite
    exact hnone.1 ⟨x, hx, Bool.eq_false_iff.2 hfinite⟩
  · intro h
    exact ⟨[], _, after, spaces_nil, isValue_textAt 0 j h, ha, rfl⟩

end Json
end PushMachine
