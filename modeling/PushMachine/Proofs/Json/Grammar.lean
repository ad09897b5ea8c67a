import PushMachine.Json
import PushMachine.Text.Control
/-!
# The texts that are JSON

The grammar of JSON over characters.  Every text of it falls into pieces that begin and end outside of strings, have
none of the letters I and N outside of strings, and no escape character at all (`IsText.clean`).  A word such as
`Infinity` breaks this, so what holds one is no JSON.
-/
namespace PushMachine
namespace Json

open Text (quotationMark backslash)

/-! ## The grammar -/

/-- What may stand between tokens. -/
def Spaces (cs : List Char) : Prop := ∀ c ∈ cs, c ∈ [' ', '\t', '\n', '\r']

def Digits (cs : List Char) : Prop := cs ≠ [] ∧ ∀ c ∈ cs, c.isDigit = true

def IsHexDigit (c : Char) : Prop := c.isDigit = true ∨ ('a' ≤ c ∧ c ≤ 'f') ∨ ('A' ≤ c ∧ c ≤ 'F')

/-- One character of a string: itself, an escape of two characters, or a code of four hexadecimal digits. -/
inductive StringUnit : List Char → Prop
  | plain {c : Char} (h : 0x20 ≤ c.toNat) (hquote : c ≠ quotationMark) (hback : c ≠ backslash) : StringUnit [c]
  | escape {c : Char} (h : c ∈ [quotationMark, backslash, '/', 'b', 'f', 'n', 'r', 't']) : StringUnit [backslash, c]
  | code {ds : List Char} (hlength : ds.length = 4) (h : ∀ c ∈ ds, IsHexDigit c) :
      StringUnit (backslash :: 'u' :: ds)

inductive StringBody : List Char → Prop
  | nil : StringBody []
  | cons {unit rest : List Char} (hunit : StringUnit unit) (h : StringBody rest) : StringBody (unit ++ rest)

def IsString (cs : List Char) : Prop := ∃ body, StringBody body ∧ cs = quotationMark :: (body ++ [quotationMark])

/-- Zero, or digits that begin with another digit than zero. -/
def IsWhole (cs : List Char) : Prop := cs = ['0'] ∨ Digits cs ∧ cs.head? ≠ some '0'

def IsFraction (cs : List Char) : Prop := cs = [] ∨ ∃ ds, Digits ds ∧ cs = '.' :: ds

def IsExponent (cs : List Char) : Prop :=
  cs = [] ∨ ∃ e sign ds, e ∈ ['e', 'E'] ∧ sign ∈ [[], ['+'], ['-']] ∧ Digits ds ∧ cs = e :: (sign ++ ds)

def IsNumber (cs : List Char) : Prop :=
  ∃ sign whole fraction exponent, sign ∈ [[], ['-']] ∧ IsWhole whole ∧ IsFraction fraction ∧ IsExponent exponent ∧
    cs = sign ++ (whole ++ (fraction ++ exponent))

mutual

inductive IsValue : List Char → Prop
  | null : IsValue "null".toList
  | true : IsValue "true".toList
  | false : IsValue "false".toList
  | number {cs : List Char} (h : IsNumber cs) : IsValue cs
  | string {cs : List Char} (h : IsString cs) : IsValue cs
  | emptyArray {spaces : List Char} (h : Spaces spaces) : IsValue ('[' :: (spaces ++ [']']))
  | array {items : List Char} (h : IsItems items) : IsValue ('[' :: (items ++ [']']))
  | emptyObject {spaces : List Char} (h : Spaces spaces) : IsValue ('\x7b' :: (spaces ++ ['\x7d']))
  | object {members : List Char} (h : IsMembers members) : IsValue ('\x7b' :: (members ++ ['\x7d']))

/-- Values, with commas between them. -/
inductive IsItems : List Char → Prop
  | one {before value after : List Char} (hb : Spaces before) (hv : IsValue value) (ha : Spaces after) :
      IsItems (before ++ (value ++ after))
  | more {before value after rest : List Char} (hb : Spaces before) (hv : IsValue value) (ha : Spaces after)
      (hrest : IsItems rest) : IsItems (before ++ (value ++ (after ++ ',' :: rest)))

/-- Names and their values, with commas between them. -/
inductive IsMembers : List Char → Prop
  | one {before name gap between value after : List Char} (hb : Spaces before) (hn : IsString name) (hg : Spaces gap)
      (hbetween : Spaces between) (hv : IsValue value) (ha : Spaces after) :
      IsMembers (before ++ (name ++ (gap ++ ':' :: (between ++ (value ++ after)))))
  | more {before name gap between value after rest : List Char} (hb : Spaces before) (hn : IsString name)
      (hg : Spaces gap) (hbetween : Spaces between) (hv : IsValue value) (ha : Spaces after) (hrest : IsMembers rest) :
      IsMembers (before ++ (name ++ (gap ++ ':' :: (between ++ (value ++ (after ++ ',' :: rest))))))

end

/-- **A text that is JSON**: one value, and what may stand around it. -/
def IsText (cs : List Char) : Prop :=
  ∃ before value after, Spaces before ∧ IsValue value ∧ Spaces after ∧ cs = before ++ (value ++ after)

/-! ## What is outside of strings -/

/-- Where in a text: outside of strings, in one, or in one right after a backslash. -/
inductive Place where
  | outside
  | inside
  | escaped

/-- The characters of a text that are in no string. -/
def bare : Place → List Char → List Char
  | _,        []      => []
  | .outside, c :: cs => if c = quotationMark then bare .inside cs else c :: bare .outside cs
  | .inside,  c :: cs =>
    if c = quotationMark then bare .outside cs else if c = backslash then bare .escaped cs else bare .inside cs
  | .escaped, _ :: cs => bare .inside cs

/-- **A piece of a text**: it begins and ends outside of strings, begins no control sequence, and has one of the letters
I and N outside of strings exactly if `p`. -/
structure Piece (cs : List Char) (p : Prop) : Prop where
  printable : Text.escape ∉ cs
  scanned : ∃ word, (∀ rest, bare .outside (cs ++ rest) = word ++ bare .outside rest) ∧
    ((∃ c ∈ word, c = 'I' ∨ c = 'N') ↔ p)

namespace Piece

variable {as bs cs : List Char} {p q : Prop}

theorem congr (h : Piece cs p) (hp : p ↔ q) : Piece cs q := by
  obtain ⟨hprintable, word, hword, hletters⟩ := h
  exact ⟨hprintable, word, hword, hletters.trans hp⟩

/-- What a piece has outside of strings is determined. -/
theorem unique (h : Piece cs p) (h' : Piece cs q) : p ↔ q := by
  obtain ⟨-, word, hword, hletters⟩ := h
  obtain ⟨-, word', hword', hletters'⟩ := h'
  have heq := (hword []).symm.trans (hword' [])
  rw [List.append_left_inj] at heq
  rw [← hletters, ← hletters', heq]

theorem append (ha : Piece as p) (hb : Piece bs q) : Piece (as ++ bs) (p ∨ q) := by
  obtain ⟨hpa, u, hu, hletters⟩ := ha
  obtain ⟨hpb, v, hv, hletters'⟩ := hb
  refine ⟨by simp [hpa, hpb], u ++ v, fun rest => ?_, ?_⟩
  · rw [List.append_assoc, hu, hv, List.append_assoc]
  · rw [← hletters, ← hletters']
    simp only [List.mem_append, or_and_right, exists_or]

/-- Outside of strings throughout. -/
theorem of_unquoted (hprintable : Text.escape ∉ cs) (h : quotationMark ∉ cs) :
    Piece cs (∃ c ∈ cs, c = 'I' ∨ c = 'N') := by
  refine ⟨hprintable, cs, fun rest => ?_, Iff.rfl⟩
  induction cs with
  | nil => rfl
  | cons c cs ih =>
    simp only [List.mem_cons, not_or] at h hprintable
    rw [List.cons_append, bare, if_neg (Ne.symm h.1), ih hprintable.2 h.2, List.cons_append]

end Piece

/-- A piece without the two letters. -/
abbrev Clean (cs : List Char) : Prop := Piece cs False

theorem Clean.append_piece {as bs : List Char} {p : Prop} (ha : Clean as) (hb : Piece bs p) : Piece (as ++ bs) p :=
  (Piece.append ha hb).congr (Iff.of_eq (false_or p))

theorem Clean.append {as bs : List Char} (ha : Clean as) (hb : Clean bs) : Clean (as ++ bs) := ha.append_piece hb

theorem Piece.append_clean {as bs : List Char} {p : Prop} (ha : Piece as p) (hb : Clean bs) : Piece (as ++ bs) p :=
  (ha.append hb).congr (Iff.of_eq (or_false p))

/-- What JSON may have outside of strings. -/
def IsPlain (c : Char) : Prop := c ≠ Text.escape ∧ c ≠ quotationMark ∧ c ≠ 'I' ∧ c ≠ 'N'

instance (c : Char) : Decidable (IsPlain c) := inferInstanceAs (Decidable (_ ∧ _))

theorem clean_of_forall {cs : List Char} (h : ∀ c ∈ cs, IsPlain c) : Clean cs := by
  refine (Piece.of_unquoted (fun hc => (h _ hc).1 rfl) fun hc => (h _ hc).2.1 rfl).congr (iff_false_intro ?_)
  rintro ⟨c, hc, hletter⟩
  exact hletter.elim (h c hc).2.2.1 (h c hc).2.2.2

theorem forall_of_all {p : Char → Prop} [DecidablePred p] {cs : List Char} (h : (cs.all fun c => p c) = true) :
    ∀ c ∈ cs, p c := fun c hc => of_decide_eq_true (List.all_eq_true.1 h c hc)

theorem clean_of_all {cs : List Char} (h : (cs.all fun c => IsPlain c) = true) : Clean cs :=
  clean_of_forall (forall_of_all h)

theorem Clean.cons {c : Char} {cs : List Char} (hc : IsPlain c) (h : Clean cs) : Clean (c :: cs) :=
  (clean_of_forall (List.forall_mem_singleton.2 hc)).append h

theorem Clean.nil : Clean [] := clean_of_forall (List.forall_mem_nil _)

/-! ## Pieces of the grammar -/

theorem Spaces.clean {cs : List Char} (h : Spaces cs) : Clean cs := by
  have hall : ∀ c ∈ [' ', '\t', '\n', '\r'], IsPlain c := forall_of_all (by decide)
  exact clean_of_forall fun c hc => hall c (h c hc)

theorem Digits.clean {cs : List Char} (h : Digits cs) : Clean cs := by
  refine clean_of_forall fun c hc => ?_
  have hdigit := h.2 c hc
  refine ⟨?_, ?_, ?_, ?_⟩ <;>
    · rintro rfl
      exact absurd hdigit (by decide)

theorem IsWhole.clean {cs : List Char} (h : IsWhole cs) : Clean cs := by
  rcases h with rfl | ⟨h, -⟩
  · exact Clean.nil.cons (by decide)
  · exact h.clean

theorem IsFraction.clean {cs : List Char} (h : IsFraction cs) : Clean cs := by
  rcases h with rfl | ⟨ds, h, rfl⟩
  · exact Clean.nil
  · exact h.clean.cons (by decide)

theorem IsExponent.clean {cs : List Char} (h : IsExponent cs) : Clean cs := by
  rcases h with rfl | ⟨e, sign, ds, he, hs, h, rfl⟩
  · exact Clean.nil
  · have hmark : ∀ e ∈ ['e', 'E'], IsPlain e := forall_of_all (by decide)
    have hsign : ∀ sign ∈ [[], ['+'], ['-']], (sign.all fun c => IsPlain c) = true := by decide
    exact ((clean_of_all (hsign sign hs)).append h.clean).cons (hmark e he)

theorem IsNumber.clean {cs : List Char} (h : IsNumber cs) : Clean cs := by
  obtain ⟨sign, whole, fraction, exponent, hs, hw, hf, he, rfl⟩ := h
  have hsign : ∀ sign ∈ [[], ['-']], (sign.all fun c => IsPlain c) = true := by decide
  exact (clean_of_all (hsign sign hs)).append (hw.clean.append (hf.clean.append he.clean))

theorem bare_inside {cs : List Char} (h : ∀ c ∈ cs, c ≠ quotationMark ∧ c ≠ backslash) (rest : List Char) :
    bare .inside (cs ++ rest) = bare .inside rest := by
  induction cs with
  | nil => rfl
  | cons c cs ih =>
    obtain ⟨⟨hquote, hback⟩, hcs⟩ := List.forall_mem_cons.1 h
    rw [List.cons_append, bare, if_neg hquote, if_neg hback, ih hcs]

theorem bare_backslash (c : Char) (rest : List Char) : bare .inside (backslash :: c :: rest) = bare .inside rest := by
  rw [bare, if_neg (by decide), if_pos rfl, bare]

theorem StringUnit.bare_inside {unit : List Char} (h : StringUnit unit) (rest : List Char) :
    bare .inside (unit ++ rest) = bare .inside rest := by
  cases h with
  | plain _ hquote hback => exact Json.bare_inside (List.forall_mem_singleton.2 ⟨hquote, hback⟩) rest
  | @escape c _ => exact bare_backslash c rest
  | @code ds _ hhex =>
    rw [List.cons_append, List.cons_append, bare_backslash]
    refine Json.bare_inside (fun c hc => ?_) rest
    have hdigit := hhex c hc
    constructor <;>
      · rintro rfl
        exact absurd hdigit (by unfold IsHexDigit; decide)

theorem StringUnit.printable {unit : List Char} (h : StringUnit unit) : Text.escape ∉ unit := by
  cases h with
  | plain h =>
    rw [List.mem_singleton]
    rintro rfl
    exact absurd h (by decide)
  | escape h =>
    have hall : ∀ c ∈ [quotationMark, backslash, '/', 'b', 'f', 'n', 'r', 't'], Text.escape ∉ [backslash, c] :=
      forall_of_all (by decide)
    exact hall _ h
  | @code ds _ hhex =>
    simp only [List.mem_cons, not_or]
    exact ⟨by decide, by decide, fun hc => absurd (hhex _ hc) (by unfold IsHexDigit; decide)⟩

theorem StringBody.bare_inside {body : List Char} (h : StringBody body) (rest : List Char) :
    bare .inside (body ++ rest) = bare .inside rest := by
  induction h with
  | nil => rfl
  | cons hunit _ ih => rw [List.append_assoc, hunit.bare_inside, ih]

theorem StringBody.printable {body : List Char} (h : StringBody body) : Text.escape ∉ body := by
  induction h with
  | nil => exact List.not_mem_nil
  | cons hunit _ ih => exact fun hc => (List.mem_append.1 hc).elim hunit.printable ih

/-- A string shows nothing to the outside. -/
theorem IsString.clean {cs : List Char} (h : IsString cs) : Clean cs := by
  obtain ⟨body, h, rfl⟩ := h
  refine ⟨?_, [], fun rest => ?_, by simp⟩
  · simp only [List.mem_cons, List.mem_append, List.not_mem_nil, or_false, not_or]
    exact ⟨by decide, h.printable, by decide⟩
  · rw [List.cons_append, List.append_assoc, bare, if_pos rfl, h.bare_inside, List.cons_append, bare, if_pos rfl]
    rfl

mutual

theorem IsValue.clean : ∀ {cs : List Char}, IsValue cs → Clean cs
  | _, .null           => clean_of_all (by decide)
  | _, .true           => clean_of_all (by decide)
  | _, .false          => clean_of_all (by decide)
  | _, .number h       => h.clean
  | _, .string h       => h.clean
  | _, .emptyArray h   => (h.clean.append (Clean.nil.cons (by decide))).cons (by decide)
  | _, .array h        => (h.clean.append (Clean.nil.cons (by decide))).cons (by decide)
  | _, .emptyObject h  => (h.clean.append (Clean.nil.cons (by decide))).cons (by decide)
  | _, .object h       => (h.clean.append (Clean.nil.cons (by decide))).cons (by decide)

theorem IsItems.clean : ∀ {cs : List Char}, IsItems cs → Clean cs
  | _, .one hb hv ha         => hb.clean.append (hv.clean.append ha.clean)
  | _, .more hb hv ha hrest  => hb.clean.append (hv.clean.append (ha.clean.append (hrest.clean.cons (by decide))))

theorem IsMembers.clean : ∀ {cs : List Char}, IsMembers cs → Clean cs
  | _, .one hb hn hg hbetween hv ha =>
    hb.clean.append (hn.clean.append (hg.clean.append
      ((hbetween.clean.append (hv.clean.append ha.clean)).cons (by decide))))
  | _, .more hb hn hg hbetween hv ha hrest =>
    hb.clean.append (hn.clean.append (hg.clean.append ((hbetween.clean.append (hv.clean.append
      (ha.clean.append (hrest.clean.cons (by decide))))).cons (by decide))))

end

/-- **A text that is JSON has no word outside of strings that has one of the two letters**, and begins no control
sequence. -/
theorem IsText.clean {cs : List Char} (h : IsText cs) : Clean cs := by
  obtain ⟨before, value, after, hb, hv, ha, rfl⟩ := h
  exact hb.clean.append (hv.clean.append ha.clean)

end Json
end PushMachine
