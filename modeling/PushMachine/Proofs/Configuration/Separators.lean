import PushMachine.Options.Configuration
/-!
# Two ways to break a configuration

A configuration held in memory is broken at every separator, one in a file at line feeds only.  The first is the second
after every separator is made a line feed (`lines_eq`), and the two give the same lines exactly where line feed and
carriage return are the only separators (`lines_eq_fileLines_iff`).
-/
namespace PushMachine
namespace Text

/-- The text with a line feed for every separator. -/
def lineFed (cs : List Char) : List Char := (unifyNewlines cs).map fun c => if isSeparator c then '\n' else c

/-- No separator but line feed and carriage return. -/
def PlainlyBroken (cs : List Char) : Prop := ∀ c ∈ cs, isSeparator c = true → c = '\n' ∨ c = '\r'

instance (cs : List Char) : Decidable (PlainlyBroken cs) :=
  decidable_of_iff (cs.all (fun c => decide (isSeparator c = true → c = '\n' ∨ c = '\r')) = true)
    (by simp only [List.all_eq_true, decide_eq_true_eq, PlainlyBroken])

/-! ## Newlines -/

theorem unifyNewlines_eq_self {cs : List Char} (h : '\r' ∉ cs) : unifyNewlines cs = cs := by
  fun_induction unifyNewlines cs with
  | case1 => rfl
  | case2 cs ih => exact absurd List.mem_cons_self h
  | case3 c cs _ ih =>
    rw [List.mem_cons, not_or] at h
    rw [if_neg (Ne.symm h.1), ih h.2]

theorem mem_unifyNewlines {c : Char} (hfeed : c ≠ '\n') {cs : List Char} :
    c ∈ unifyNewlines cs ↔ c ∈ cs ∧ c ≠ '\r' := by
  fun_induction unifyNewlines cs with
  | case1 => simp
  | case2 cs ih =>
    simp only [List.mem_cons, ih, hfeed, false_or]
    grind
  | case3 d cs _ ih =>
    simp only [List.mem_cons, ih]
    grind

theorem not_mem_unifyNewlines (cs : List Char) : '\r' ∉ unifyNewlines cs :=
  fun h => ((mem_unifyNewlines (by decide)).1 h).2 rfl

/-! ## Lines -/

theorem breakFrom_congr {ends ends' : Char → Bool} {cs : List Char} (h : ∀ c ∈ cs, ends c = ends' c)
    (line : List Char) : breakFrom ends line cs = breakFrom ends' line cs := by
  induction cs generalizing line with
  | nil => cases line <;> rfl
  | cons c cs ih =>
    obtain ⟨hc, hcs⟩ := List.forall_mem_cons.1 h
    rw [breakFrom, breakFrom, hc, ih hcs, ih hcs]

theorem breakFrom_map {ends ends' : Char → Bool} {f : Char → Char} (hends : ∀ c, ends' (f c) = ends c)
    (hkept : ∀ c, ends c = false → f c = c) (line cs : List Char) :
    breakFrom ends' line (cs.map f) = breakFrom ends line cs := by
  induction cs generalizing line with
  | nil => cases line <;> rfl
  | cons c cs ih =>
    rw [List.map_cons, breakFrom, breakFrom, hends, ih]
    cases hc : ends c with
    | true  => rfl
    | false => rw [hkept c hc, ih]

/-- The lines hold every character that does not end one, and no other. -/
theorem mem_flatten_breakFrom {ends : Char → Bool} {c : Char} {line cs : List Char} :
    c ∈ (breakFrom ends line cs).flatten ↔ c ∈ line ∨ c ∈ cs ∧ ends c = false := by
  fun_induction breakFrom ends line cs with
  | case1 => simp
  | case2 line h => simp
  | case3 line d cs hd ih =>
    simp only [List.flatten_cons, List.mem_append, List.mem_reverse, ih, List.mem_cons, List.not_mem_nil, false_or]
    grind
  | case4 line d cs hd ih =>
    simp only [ih, List.mem_cons]
    grind

/-- **Breaking at every separator is making it a line feed and breaking at line feeds.** -/
theorem lines_eq (cs : List Char) : lines cs = fileLines (lineFed cs) := by
  have hreturn : '\r' ∉ lineFed cs := by
    rw [lineFed, List.mem_map]
    rintro ⟨c, hc, heq⟩
    split at heq
    · cases heq
    · exact not_mem_unifyNewlines cs (heq ▸ hc)
  rw [lines, fileLines, unifyNewlines_eq_self hreturn]
  refine (breakFrom_map (fun c => ?_) (fun c hc => if_neg (by rw [hc]; decide)) [] _).symm
  cases hc : isSeparator c with
  | true => rfl
  | false =>
    refine beq_eq_false_iff_ne.2 ?_
    rintro rfl
    cases hc

/-- **The lines are the same exactly if no other separator is in the text.** -/
theorem lines_eq_fileLines_iff {cs : List Char} : lines cs = fileLines cs ↔ PlainlyBroken cs := by
  constructor
  · intro h c hc hsep
    refine Decidable.byContradiction fun hother => ?_
    rw [not_or] at hother
    have hmem : c ∈ (fileLines cs).flatten :=
      mem_flatten_breakFrom.2 (.inr
        ⟨(mem_unifyNewlines hother.1).2 ⟨hc, hother.2⟩, beq_eq_false_iff_ne.2 hother.1⟩)
    rw [← h] at hmem
    rcases mem_flatten_breakFrom.1 hmem with hnil | ⟨-, hend⟩
    · cases hnil
    · rw [hsep] at hend
      cases hend
  · intro h
    refine breakFrom_congr (fun c hc => ?_) []
    by_cases hfeed : c = '\n'
    · subst hfeed
      rfl
    · have hc' := (mem_unifyNewlines hfeed).1 hc
      rw [beq_eq_false_iff_ne.2 hfeed, Bool.eq_false_iff]
      exact fun hsep => (h c hc'.1 hsep).elim hfeed hc'.2

end Text

namespace Options

/-- **How reading a configuration in memory and reading it from a file differ**: the text is read as the file with a
line feed for every separator is, and as the file with the same content if line feed and carriage return are its only
separators. -/
theorem ofText_eq_ofFile (text : String) :
    ofText text = ofFile (String.ofList (Text.lineFed text.toList)) ∧
      (Text.PlainlyBroken text.toList → ofText text = ofFile text) := by
  constructor
  · rw [ofText, ofFile, String.toList_ofList, Text.lines_eq]
  · intro h
    rw [ofText, ofFile, Text.lines_eq_fileLines_iff.2 h]

theorem ofText_eq_ofFile_returns :
    ofText "type integer\r\nrandom-seed 2\r" = ofFile "type integer\r\nrandom-seed 2\r" :=
  (ofText_eq_ofFile _).2 (by decide)

/-- A vertical tab ends a line of a text, but is a blank within a line of a file. -/
theorem ofText_ne_ofFile_verticalTab :
    ofText "random-seed 1\x0brandom-seed 2" = .ok { seed := 2 } ∧
      ofFile "random-seed 1\x0brandom-seed 2" = .error (.line 1 (.notInteger "1\x0brandom-seed 2")) :=
  ⟨rfl, rfl⟩

end Options
end PushMachine
