import Mathlib.Data.List.Pairwise
import PushMachine.Proofs.Canonical
/-!
# Scanning word by word

At the first letter of a word the scan takes every letter up to the next delimiter, as one lexeme, and goes on at that
delimiter (`scanFrom_word`).  A blank, a parenthesis or such a word is one turn of the scan, and `scan_induction` is
induction on the turns that are left.  So lexemes are pieces of the text, in order and apart, and every character that
is no blank lies in one of them (`Scanned`).  Where the scan stands between two words it does not look back, so texts
with blanks between them are scanned one by one (`scan_append_blank`).
-/
namespace PushMachine
namespace Lexeme

open PushMachine.Tree (Stops stops_cons scanFrom_blank scanFrom_parenthesis scanFrom_word delimiter_cases)

/-! ## One turn -/

theorem isDelimiter_of_isBlank {c : Char} (h : Text.isBlank c = true) : isDelimiter c = true := by
  rw [isDelimiter, h, Bool.true_or]

theorem isDelimiter_of_isParenthesis {c : Char} (h : isParenthesis c = true) : isDelimiter c = true := by
  rw [isDelimiter, h, Bool.or_true]

/-- The letters in front, up to the next delimiter, and the rest. -/
theorem exists_word : ∀ cs : List Char, ∃ word rest, cs = word ++ rest ∧ Unbroken word ∧ Stops rest
  | []      => ⟨[], [], rfl, .nil, fun _ hd => by cases hd⟩
  | c :: cs => by
    cases hc : isDelimiter c with
    | true => exact ⟨[], c :: cs, rfl, .nil, stops_cons hc⟩
    | false =>
      obtain ⟨word, rest, rfl, hw, hs⟩ := exists_word cs
      exact ⟨c :: word, rest, rfl, .cons hc hw, hs⟩

/-- **Induction on the turns of a scan**: a blank, a parenthesis, or a word that the rest does not go on with. -/
@[elab_as_elim]
theorem scan_induction {motive : List Char → Prop} (nil : motive [])
    (blank : ∀ c cs, Text.isBlank c = true → motive cs → motive (c :: cs))
    (parenthesis : ∀ c cs, isParenthesis c = true → motive cs → motive (c :: cs))
    (word : ∀ word rest, word ≠ [] → Unbroken word → Stops rest → motive rest → motive (word ++ rest)) :
    ∀ cs, motive cs
  | []      => nil
  | c :: cs => by
    have ih : ∀ rest : List Char, rest.length < (c :: cs).length → motive rest := fun rest hrest =>
      scan_induction nil blank parenthesis word rest
    have hlt : cs.length < (c :: cs).length := Nat.lt_succ_self _
    rcases delimiter_cases c with hb | rfl | rfl | hl
    · exact blank c cs hb (ih cs hlt)
    · exact parenthesis _ cs (by decide) (ih cs hlt)
    · exact parenthesis _ cs (by decide) (ih cs hlt)
    · obtain ⟨w, rest, rfl, hw, hs⟩ := exists_word cs
      have hrest : rest.length < (c :: (w ++ rest)).length := by
        rw [List.length_cons, List.length_append]
        omega
      exact word (c :: w) rest (List.cons_ne_nil c w) (.cons hl hw) hs (ih rest hrest)
termination_by cs => cs.length
decreasing_by exact hrest

/-! ## Places -/

/-- The place behind the last character. -/
def stop (l : Lexeme) : Nat := l.offset + l.text.length

/-- The character at `n` is one of the lexeme. -/
def Covers (l : Lexeme) (n : Nat) : Prop := l.offset ≤ n ∧ n < l.stop

/-- The same lexeme, `n` places further on. -/
def shift (n : Nat) (l : Lexeme) : Lexeme := { l with offset := l.offset + n }

theorem stop_word (word : List Char) (offset : Nat) :
    stop ⟨String.ofList word, offset⟩ = offset + word.length := by
  rw [stop, String.length_ofList]

theorem stop_parenthesis (c : Char) (offset : Nat) : stop ⟨String.singleton c, offset⟩ = offset + 1 := by
  rw [stop, String.length_singleton]

theorem scanFrom_shift (n : Nat) (cs : List Char) :
    ∀ offset, scanFrom (offset + n) [] cs = (scanFrom offset [] cs).map (shift n) := by
  induction cs using scan_induction with
  | nil => exact fun offset => rfl
  | blank c cs hc ih =>
    intro offset
    rw [scanFrom_blank hc, scanFrom_blank hc, Nat.add_right_comm, ih]
  | parenthesis c cs hc ih =>
    intro offset
    rw [scanFrom_parenthesis hc, scanFrom_parenthesis hc, Nat.add_right_comm, ih, List.map_cons, shift]
  | word word rest hne hw hs ih =>
    intro offset
    rw [scanFrom_word hne hw hs, scanFrom_word hne hw hs, Nat.add_right_comm, ih, List.map_cons, shift]

/-- Lexemes start where the scan starts or later. -/
theorem le_offset_of_mem (cs : List Char) : ∀ {offset : Nat}, ∀ l ∈ scanFrom offset [] cs, offset ≤ l.offset := by
  induction cs using scan_induction with
  | nil =>
    intro offset l hl
    cases hl
  | blank c cs hc ih =>
    intro offset l hl
    rw [scanFrom_blank hc] at hl
    exact Nat.le_of_succ_le (ih l hl)
  | parenthesis c cs hc ih =>
    intro offset
    rw [scanFrom_parenthesis hc]
    exact List.forall_mem_cons.2 ⟨Nat.le_refl _, fun l hl => Nat.le_of_succ_le (ih l hl)⟩
  | word word rest hne hw hs ih =>
    intro offset
    rw [scanFrom_word hne hw hs]
    exact List.forall_mem_cons.2 ⟨Nat.le_refl _, fun l hl => Nat.le_trans (Nat.le_add_right _ _) (ih l hl)⟩

/-- **Lexemes follow one another**: each is over, and it is not empty, before the next one starts. -/
theorem pairwise_scanFrom (cs : List Char) :
    ∀ offset, (scanFrom offset [] cs).Pairwise fun a b => a.offset < a.stop ∧ a.stop ≤ b.offset := by
  induction cs using scan_induction with
  | nil => exact fun offset => .nil
  | blank c cs hc ih =>
    intro offset
    rw [scanFrom_blank hc]
    exact ih _
  | parenthesis c cs hc ih =>
    intro offset
    rw [scanFrom_parenthesis hc]
    refine .cons (fun l hl => ?_) (ih _)
    rw [stop_parenthesis]
    exact ⟨Nat.lt_succ_self _, le_offset_of_mem cs l hl⟩
  | word word rest hne hw hs ih =>
    intro offset
    rw [scanFrom_word hne hw hs]
    refine .cons (fun l hl => ?_) (ih _)
    rw [stop_word]
    exact ⟨Nat.lt_add_of_pos_right (List.length_pos_iff.2 hne), le_offset_of_mem rest l hl⟩

theorem eq_of_covers {cs : List Char} {offset n : Nat} {a b : Lexeme} (ha : a ∈ scanFrom offset [] cs)
    (hb : b ∈ scanFrom offset [] cs) (han : a.Covers n) (hbn : b.Covers n) : a = b := by
  have hapart : (scanFrom offset [] cs).Pairwise fun a b => a.stop ≤ b.offset ∨ b.stop ≤ a.offset :=
    (pairwise_scanFrom cs offset).imp fun h => .inl h.2
  have : Std.Symm fun a b : Lexeme => a.stop ≤ b.offset ∨ b.stop ≤ a.offset := ⟨fun _ _ h => h.symm⟩
  refine Classical.byContradiction fun hne => ?_
  obtain ⟨ha₁, ha₂⟩ := han
  obtain ⟨hb₁, hb₂⟩ := hbn
  rcases hapart.forall ha hb hne with h | h <;> omega

/-- **No character but a blank is lost.** -/
theorem exists_covers (cs : List Char) : ∀ (offset : Nat) {n : Nat} {c : Char}, cs[n]? = some c →
    Text.isBlank c = false → ∃ l ∈ scanFrom offset [] cs, l.Covers (offset + n) := by
  induction cs using scan_induction with
  | nil =>
    intro offset n c hn _
    cases hn
  | blank d cs hd ih =>
    intro offset n c hn hc
    rw [scanFrom_blank hd]
    cases n with
    | zero =>
      cases hn
      rw [hd] at hc
      cases hc
    | succ n =>
      rw [← Nat.add_assoc, Nat.add_right_comm]
      exact ih (offset + 1) hn hc
  | parenthesis d cs hd ih =>
    intro offset n c hn hc
    rw [scanFrom_parenthesis hd]
    cases n with
    | zero => exact ⟨_, List.mem_cons_self, Nat.le_refl _, by rw [stop_parenthesis]; exact Nat.lt_succ_self _⟩
    | succ n =>
      obtain ⟨l, hl, hln⟩ := ih (offset + 1) hn hc
      rw [← Nat.add_assoc, Nat.add_right_comm]
      exact ⟨l, List.mem_cons_of_mem _ hl, hln⟩
  | word word rest hne hw hs ih =>
    intro offset n c hn hc
    rw [scanFrom_word hne hw hs]
    rcases Nat.lt_or_ge n word.length with hlt | hge
    · exact ⟨_, List.mem_cons_self, Nat.le_add_right _ _, by rw [stop_word]; exact Nat.add_lt_add_left hlt _⟩
    · rw [List.getElem?_append_right hge] at hn
      obtain ⟨l, hl, hln⟩ := ih (offset + word.length) hn hc
      rw [Nat.add_assoc, Nat.add_sub_cancel' hge] at hln
      exact ⟨l, List.mem_cons_of_mem _ hl, hln⟩

/-! ## Longest runs -/

/-- A letter stands at `n`. -/
def LetterAt (cs : List Char) (n : Nat) : Prop := ∃ c ∈ cs[n]?, isDelimiter c = false

/-- From `i` up to `j` there are only letters, at least one. -/
structure IsRun (cs : List Char) (i j : Nat) : Prop where
  nonempty : i < j
  letters  : ∀ n, i ≤ n → n < j → LetterAt cs n

/-- **A longest run**: letters from `i` up to `j`, and no run that reaches beyond them. -/
structure IsLongestRun (cs : List Char) (i j : Nat) : Prop where
  run     : IsRun cs i j
  longest : ∀ i' j', IsRun cs i' j' → i' ≤ i → j ≤ j' → i' = i ∧ j' = j

theorem not_letterAt_behind (before : List Char) {rest : List Char} (hs : Stops rest) :
    ¬ LetterAt (before ++ rest) before.length := by
  rintro ⟨c, hc, hl⟩
  rw [List.getElem?_append_right (Nat.le_refl _), Nat.sub_self, ← List.head?_eq_getElem?] at hc
  rw [hs c hc] at hl
  cases hl

theorem not_letterAt_ahead {before : List Char} (hs : Stops before.reverse) (rest : List Char) {n : Nat}
    (hn : n + 1 = before.length) : ¬ LetterAt (before ++ rest) n := by
  rintro ⟨c, hc, hl⟩
  rw [List.getElem?_append_left (by omega)] at hc
  rw [hs c (by rw [List.head?_reverse, List.getLast?_eq_getElem?, ← hn]; exact hc)] at hl
  cases hl

/-- A word between delimiters, or the ends of the text, is a longest run. -/
theorem isLongestRun_word {before word rest : List Char} (hb : Stops before.reverse) (hne : word ≠ [])
    (hw : Unbroken word) (hs : Stops rest) :
    IsLongestRun (before ++ (word ++ rest)) before.length (before.length + word.length) where
  run := by
    refine ⟨Nat.lt_add_of_pos_right (List.length_pos_iff.2 hne), fun n hn hlt => ?_⟩
    have hlt : n - before.length < word.length := by omega
    refine ⟨word[n - before.length], ?_, hw _ (List.getElem_mem hlt)⟩
    rw [List.getElem?_append_right hn, List.getElem?_append_left hlt]
    exact List.getElem?_eq_getElem hlt
  longest i j hrun hi hj := by
    constructor
    · -- a run from further ahead holds the delimiter in front of the word
      refine Nat.le_antisymm hi (Nat.le_of_not_lt fun hlt => ?_)
      exact not_letterAt_ahead hb (word ++ rest) (n := before.length - 1) (by omega)
        (hrun.letters _ (by omega) (by omega))
    · -- and one that goes on holds the delimiter behind it
      refine Nat.le_antisymm (Nat.le_of_not_lt fun hlt => ?_) hj
      have hbehind := not_letterAt_behind (before ++ word) hs
      rw [List.append_assoc, List.length_append] at hbehind
      exact hbehind (hrun.letters _ (by omega) hlt)

/-- **A lexeme of a text** is what stands at its place there: a parenthesis or a longest run of letters. -/
structure StandsIn (cs : List Char) (l : Lexeme) : Prop where
  slice : cs.extract l.offset l.stop = l.text.toList
  shape : l.text = "(" ∨ l.text = ")" ∨ IsLongestRun cs l.offset l.stop

theorem extract_append (before word rest : List Char) :
    (before ++ (word ++ rest)).extract before.length (before.length + word.length) = word := by
  rw [List.extract_eq_take_drop, List.drop_left, Nat.add_sub_cancel_left, List.take_left]

theorem standsIn_parenthesis (before cs : List Char) {c : Char} (hc : isParenthesis c = true) :
    StandsIn (before ++ c :: cs) ⟨String.singleton c, before.length⟩ where
  slice := by
    rw [stop_parenthesis, String.toList_singleton]
    exact extract_append before [c] cs
  shape := by
    rw [isParenthesis, Bool.or_eq_true, beq_iff_eq, beq_iff_eq] at hc
    rcases hc with rfl | rfl
    · exact .inl rfl
    · exact .inr (.inl rfl)

theorem standsIn_word {before word rest : List Char} (hb : Stops before.reverse) (hne : word ≠ [])
    (hw : Unbroken word) (hs : Stops rest) :
    StandsIn (before ++ (word ++ rest)) ⟨String.ofList word, before.length⟩ where
  slice := by
    rw [stop_word, String.toList_ofList]
    exact extract_append before word rest
  shape := by
    rw [stop_word]
    exact .inr (.inr (isLongestRun_word hb hne hw hs))

theorem stops_concat (before : List Char) {c : Char} (hc : isDelimiter c = true) : Stops (before ++ [c]).reverse := by
  rw [List.reverse_append]
  exact stops_cons hc

/-- Whatever was read before, the scan reads lexemes of the text, unless it starts inside a word. -/
theorem standsIn_of_mem_scanFrom (cs : List Char) : ∀ (before : List Char), Stops before.reverse ∨ Stops cs →
    ∀ l ∈ scanFrom before.length [] cs, StandsIn (before ++ cs) l := by
  induction cs using scan_induction with
  | nil =>
    intro before _ l hl
    cases hl
  | blank c cs hc ih =>
    intro before _
    have hrest := ih (before ++ [c]) (.inl (stops_concat before (isDelimiter_of_isBlank hc)))
    rw [List.append_assoc, List.length_append] at hrest
    rw [scanFrom_blank hc]
    exact hrest
  | parenthesis c cs hc ih =>
    intro before _
    have hrest := ih (before ++ [c]) (.inl (stops_concat before (isDelimiter_of_isParenthesis hc)))
    rw [List.append_assoc, List.length_append] at hrest
    rw [scanFrom_parenthesis hc]
    exact List.forall_mem_cons.2 ⟨standsIn_parenthesis before cs hc, hrest⟩
  | word word rest hne hw hs ih =>
    intro before hbefore
    -- what is to be read starts with a letter, so the text before it does not end with one
    have hb : Stops before.reverse := by
      refine hbefore.resolve_right fun hstops => ?_
      obtain ⟨c, cs, rfl⟩ := List.exists_cons_of_ne_nil hne
      have hc := hw c List.mem_cons_self
      rw [hstops c rfl] at hc
      cases hc
    have hrest := ih (before ++ word) (.inr hs)
    rw [List.append_assoc, List.length_append] at hrest
    rw [scanFrom_word hne hw hs]
    exact List.forall_mem_cons.2 ⟨standsIn_word hb hne hw hs, hrest⟩

/-! ## Texts one after the other -/

/-- A scan that comes to a delimiter goes on there as at the start of a text. -/
theorem scanFrom_append {rest : List Char} (hs : Stops rest) (cs : List Char) :
    ∀ offset, scanFrom offset [] (cs ++ rest) = scanFrom offset [] cs ++ scanFrom (offset + cs.length) [] rest := by
  induction cs using scan_induction with
  | nil => exact fun offset => rfl
  | blank c cs hc ih =>
    intro offset
    rw [List.cons_append, scanFrom_blank hc, scanFrom_blank hc, ih, List.length_cons, Nat.add_right_comm,
      Nat.add_assoc]
  | parenthesis c cs hc ih =>
    intro offset
    rw [List.cons_append, scanFrom_parenthesis hc, scanFrom_parenthesis hc, ih, List.length_cons,
      Nat.add_right_comm, Nat.add_assoc, List.cons_append]
  | word word cs hne hw hcs ih =>
    intro offset
    have hstops : Stops (cs ++ rest) := by
      cases cs with
      | nil => exact hs
      | cons c cs => exact hcs
    rw [List.append_assoc, scanFrom_word hne hw hstops, scanFrom_word hne hw hcs, ih, List.length_append,
      Nat.add_assoc, List.cons_append]

theorem scanFrom_blanks (rest : List Char) : ∀ {blanks : List Char}, (∀ c ∈ blanks, Text.isBlank c = true) →
    ∀ offset, scanFrom offset [] (blanks ++ rest) = scanFrom (offset + blanks.length) [] rest
  | [],          _, offset => rfl
  | c :: blanks, h, offset => by
    obtain ⟨hc, hblanks⟩ := List.forall_mem_cons.1 h
    rw [List.cons_append, scanFrom_blank hc, scanFrom_blanks rest hblanks, List.length_cons, Nat.add_right_comm,
      Nat.add_assoc]

/-- **Blanks keep texts apart**: what stands on one side of them is scanned as if the other side were not there. -/
theorem scan_append_blank (s t : String) {w : String} (hne : w ≠ "") (hw : ∀ c ∈ w.toList, Text.isBlank c = true) :
    scan (s ++ w ++ t) = scan s ++ (scan t).map (shift (s.length + w.length)) := by
  have hstops : Stops (w.toList ++ t.toList) := by
    obtain ⟨c, cs, hcs⟩ := List.exists_cons_of_ne_nil (mt String.toList_eq_nil_iff.1 hne)
    rw [hcs] at hw ⊢
    exact stops_cons (isDelimiter_of_isBlank (hw c List.mem_cons_self))
  rw [scan, String.toList_append, String.toList_append, List.append_assoc, scanFrom_append hstops,
    scanFrom_blanks _ hw, Nat.zero_add, String.length_toList, String.length_toList, ← Nat.zero_add (s.length + w.length),
    scanFrom_shift, Nat.zero_add]
  rfl

/-! ## All texts -/

/-- **What scanning makes of a text.** -/
structure Scanned (text : String) : Prop where
  /-- Lexemes come in the order of the text, no two at one place. -/
  increasing : (scan text).Pairwise fun a b => a.offset < b.offset
  /-- A lexeme is the piece of the text at its offset. -/
  slice : ∀ l ∈ scan text, text.toList.extract l.offset l.stop = l.text.toList
  /-- It is a parenthesis or a longest run of characters that are neither blank nor a parenthesis. -/
  shape : ∀ l ∈ scan text, l.text = "(" ∨ l.text = ")" ∨ IsLongestRun text.toList l.offset l.stop
  /-- A character that is no blank lies in exactly one lexeme. -/
  complete : ∀ (n : Nat) (c : Char), text.toList[n]? = some c → Text.isBlank c = false →
    ∃! l, l ∈ scan text ∧ l.Covers n
  /-- A lexeme that is no parenthesis makes an atom. -/
  atoms : ∀ l ∈ scan text, l.text ≠ "(" → l.text ≠ ")" → Tree.ofToken l.text = .ok (.atom l.text)

theorem scanned (text : String) : Scanned text where
  increasing := (pairwise_scanFrom text.toList 0).imp fun h => Nat.lt_of_lt_of_le h.1 h.2
  slice l hl := (standsIn_of_mem_scanFrom text.toList [] (.inl fun c hc => by cases hc) l hl).slice
  shape l hl := (standsIn_of_mem_scanFrom text.toList [] (.inl fun c hc => by cases hc) l hl).shape
  complete n c hn hc := by
    obtain ⟨l, hl, hln⟩ := exists_covers text.toList 0 hn hc
    rw [Nat.zero_add] at hln
    exact ⟨l, ⟨hl, hln⟩, fun l' hl' => eq_of_covers hl'.1 hl hl'.2 hln⟩
  atoms l hl hopen hclose :=
    ((Tree.ofToken_of_mem_scanFrom text.toList (List.forall_mem_nil _) l hl).resolve_left hopen).resolve_left hclose

/-- **Scanning loses nothing**: the lexemes of a text are its parentheses and its longest words, each at its place, and
blanks between two texts separate their lexemes. -/
theorem scan_lossless :
    (∀ text, Scanned text) ∧
    ∀ s w t : String, w ≠ "" → (∀ c ∈ w.toList, Text.isBlank c = true) →
      scan (s ++ w ++ t) = scan s ++ (scan t).map (shift (s.length + w.length)) :=
  ⟨scanned, fun s _ t hne hw => scan_append_blank s t hne hw⟩

/-- A space and a line separator between texts that one pair of parentheses spans. -/
theorem scan_lossless_separated :
    " \u2028" ≠ "" ∧ (∀ c ∈ " \u2028".toList, Text.isBlank c = true) ∧ Scanned ("(a.b" ++ " \u2028" ++ ")c") ∧
      scan "(a.b" = [⟨"(", 0⟩, ⟨"a.b", 1⟩] ∧ scan ")c" = [⟨")", 0⟩, ⟨"c", 1⟩] ∧
      scan ("(a.b" ++ " \u2028" ++ ")c") =
        scan "(a.b" ++ (scan ")c").map (shift ("(a.b".length + " \u2028".length)) := by
  have hne : " \u2028" ≠ "" := by decide
  have hw : ∀ c ∈ " \u2028".toList, Text.isBlank c = true := List.all_eq_true.1 (by decide)
  exact ⟨hne, hw, scan_lossless.1 _, rfl, rfl, scan_lossless.2 _ _ _ hne hw⟩

end Lexeme
end PushMachine
