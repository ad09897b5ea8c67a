import PushMachine.Proofs.Grammar
import PushMachine.Proofs.RoundTrip
/-!
# The canonical text of a program

`spaced` writes lexemes one after the other, with one space between two of them unless the first opens a list or the
second closes one.  Scanning gives the lexemes back (`map_text_scanFrom_spaced`), and the canonical text of a tree is
the spacing of its lexemes (`rendered_eq_spaced`).  So printing a parsed text neither loses nor adds a lexeme, apart
from the parentheses around several items (`print_of_parse`).
-/
namespace PushMachine
namespace Tree

open Lexeme (isDelimiter scanFrom ofWord Unbroken)

/-- What stands between a lexeme and those after it: a space, unless the first opens a list or the next closes one. -/
def gap (word : String) : List String → List Char
  | []     => []
  | v :: _ => if word = "(" ∨ v = ")" then [] else [' ']

/-- **Lexemes in canonical spelling.** -/
def spaced : List String → List Char
  | []            => []
  | word :: words => word.toList ++ gap word words ++ spaced words

/-! ## Scanning what was spaced -/

theorem scanFrom_blank {c : Char} (hc : Text.isBlank c = true) (offset : Nat) (cs : List Char) :
    scanFrom offset [] (c :: cs) = scanFrom (offset + 1) [] cs := by
  rw [scanFrom, if_pos hc]
  rfl

theorem isBlank_of_isParenthesis {c : Char} (h : Lexeme.isParenthesis c = true) : Text.isBlank c = false := by
  rw [Lexeme.isParenthesis, Bool.or_eq_true, beq_iff_eq, beq_iff_eq] at h
  rcases h with rfl | rfl <;> decide

theorem scanFrom_parenthesis {c : Char} (hc : Lexeme.isParenthesis c = true) (offset : Nat) (cs : List Char) :
    scanFrom offset [] (c :: cs) = ⟨String.singleton c, offset⟩ :: scanFrom (offset + 1) [] cs := by
  rw [scanFrom, isBlank_of_isParenthesis hc, hc]
  rfl

/-- A word is over where what follows stops it. -/
theorem scanFrom_stops {rest : List Char} (hs : Stops rest) (offset : Nat) (word : List Char) :
    scanFrom offset word rest = ofWord offset word ++ scanFrom offset [] rest := by
  cases rest with
  | nil => exact (List.append_nil _).symm
  | cons c cs =>
    have hc := hs c rfl
    rw [isDelimiter] at hc
    rw [scanFrom, scanFrom]
    split
    · rfl
    · rename_i hb
      rw [Bool.not_eq_true] at hb
      rw [hb, Bool.false_or] at hc
      rw [if_pos hc, if_pos hc]
      rfl

/-- **A word is read in one go.** -/
theorem scanFrom_word {word rest : List Char} (hne : word ≠ []) (hw : Unbroken word) (hs : Stops rest)
    (offset : Nat) :
    scanFrom offset [] (word ++ rest) =
      ⟨String.ofList word, offset⟩ :: scanFrom (offset + word.length) [] rest := by
  obtain ⟨c, cs, hrev⟩ := List.exists_cons_of_ne_nil (List.reverse_ne_nil_iff.2 hne)
  have hword : ofWord (offset + word.length) word.reverse = [⟨String.ofList word, offset⟩] := by
    rw [hrev, ofWord, ← hrev, List.reverse_reverse, List.length_reverse, Nat.add_sub_cancel]
    intro h
    cases h
  rw [scan_letters hw, List.append_nil, scanFrom_stops hs, hword, List.singleton_append]

theorem stops_gap_spaced {word : String} (hw : word ≠ "(") :
    ∀ words : List String, Stops (gap word words ++ spaced words)
  | []         => fun c hc => by cases hc
  | v :: words => by
    by_cases hv : v = ")"
    · subst hv
      rw [gap, if_pos (.inr rfl), List.nil_append, spaced]
      exact stops_cons rfl
    · rw [gap, if_neg (by simp [hw, hv])]
      exact stops_cons rfl

/-- **Scanning gives back the lexemes that were spaced.** -/
theorem map_text_scanFrom_spaced : ∀ {words : List String}, (∀ w ∈ words, w = "(" ∨ w = ")" ∨ isToken w = true) →
    ∀ offset : Nat, (scanFrom offset [] (spaced words)).map (·.text) = words
  | [],         _, offset => rfl
  | w :: words, h, offset => by
    obtain ⟨hw, hwords⟩ := List.forall_mem_cons.1 h
    -- a gap is a space or nothing, so the scan goes past it
    have hgap : ∀ offset : Nat, (scanFrom offset [] (gap w words ++ spaced words)).map (·.text) = words := by
      intro offset
      have hcases : gap w words = [] ∨ gap w words = [' '] := by
        cases words with
        | nil => exact .inl rfl
        | cons v vs =>
          rw [gap]
          split
          · exact .inl rfl
          · exact .inr rfl
      rcases hcases with hg | hg
      · rw [hg]
        exact map_text_scanFrom_spaced hwords offset
      · rw [hg, List.singleton_append, scanFrom_blank (by decide)]
        exact map_text_scanFrom_spaced hwords (offset + 1)
    rw [spaced, List.append_assoc]
    rcases hw with rfl | rfl | hw
    · show (scanFrom offset [] ('(' :: (gap "(" words ++ spaced words))).map (·.text) = _
      rw [scanFrom_parenthesis (by decide), List.map_cons, hgap]
      rfl
    · show (scanFrom offset [] (')' :: (gap ")" words ++ spaced words))).map (·.text) = _
      rw [scanFrom_parenthesis (by decide), List.map_cons, hgap]
      rfl
    · obtain ⟨hne, hcs⟩ := isToken_iff.1 hw
      rw [scanFrom_word hne hcs (stops_gap_spaced (ne_parenthesis_of_isToken hw).1 words), List.map_cons, hgap,
        String.ofList_toList]

/-! ## The canonical text -/

theorem gap_of_ne {word : String} (h : word ≠ "(") (words : List String) : gap word words = gap ")" words := by
  cases words with
  | nil => rfl
  | cons v vs =>
    have hne : (")" : String) ≠ "(" := by decide
    simp only [gap, h, hne, false_or]

/-- No tree is written with a closing parenthesis first. -/
theorem exists_spelling_eq_cons {t : Tree} (ht : t.WellFormed) : ∃ w ws, t.spelling = w :: ws ∧ w ≠ ")" := by
  cases t with
  | atom token => exact ⟨token, [], rfl, (ne_parenthesis_of_isToken (wellFormed_atom.1 ht)).2⟩
  | list ts => exact ⟨"(", _, rfl, by decide⟩

/-- Before the next item of a list there is a gap. -/
theorem gap_spellingAll {t : Tree} (ht : t.WellFormed) (ts : List Tree) (words : List String) :
    gap ")" (spellingAll (t :: ts) ++ words) = [' '] := by
  obtain ⟨w, ws, hs, hw⟩ := exists_spelling_eq_cons ht
  have hne : ¬ ((")" : String) = "(" ∨ w = ")") := by simp [hw]
  rw [spellingAll, hs, List.cons_append, List.cons_append, gap, if_neg hne]

mutual

theorem spaced_spelling_append : ∀ {t : Tree}, t.WellFormed → ∀ words : List String,
    spaced (t.spelling ++ words) = t.rendered ++ gap ")" words ++ spaced words
  | .atom token, ht, words => by
    have hopen := (ne_parenthesis_of_isToken (wellFormed_atom.1 ht)).1
    rw [spelling, List.singleton_append, spaced, rendered, gap_of_ne hopen]
  | .list ts, ht, words => by
    have hopen : ∀ words : List String, gap "(" words = [] := by
      intro words
      cases words with
      | nil => rfl
      | cons v vs => rw [gap, if_pos (.inl rfl)]
    rw [spelling, List.cons_append, List.append_assoc, List.singleton_append, spaced, hopen,
      spaced_spellingAll_append (wellFormed_list.1 ht), rendered, spaced]
    show '(' :: (renderedAll false ts ++ ')' :: (gap ")" words ++ spaced words)) = _
    simp only [List.cons_append, List.append_assoc, List.nil_append]

theorem spaced_spellingAll_append : ∀ {ts : List Tree}, (∀ t ∈ ts, t.WellFormed) → ∀ words : List String,
    spaced (spellingAll ts ++ ")" :: words) = renderedAll false ts ++ spaced (")" :: words)
  | [],      _, words => by rw [spellingAll, renderedAll]; rfl
  | t :: ts, h, words => by
    obtain ⟨ht, hts⟩ := List.forall_mem_cons.1 h
    rw [spellingAll, List.append_assoc, spaced_spelling_append ht, spaced_spellingAll_append hts, renderedAll]
    cases ts with
    | nil => rw [spellingAll, renderedAll, renderedAll, List.nil_append, gap, if_pos (.inr rfl)]; simp
    | cons u us =>
      rw [gap_spellingAll (hts u List.mem_cons_self), renderedAll, renderedAll]
      simp

end

/-- **The canonical text of a tree is the spacing of its lexemes.** -/
theorem rendered_eq_spaced {t : Tree} (ht : t.WellFormed) : t.rendered = spaced t.spelling := by
  have h := spaced_spelling_append ht []
  rw [List.append_nil] at h
  rw [h, gap, spaced, List.append_nil, List.append_nil]

theorem lexeme_of_mem_spellingAll {ts : List Tree} (hts : ∀ t ∈ ts, t.WellFormed) :
    ∀ w ∈ spellingAll ts, w = "(" ∨ w = ")" ∨ isToken w = true := by
  have hitems := items_spellingAll hts
  generalize spellingAll ts = words at hitems ⊢
  induction hitems with
  | nil => exact List.forall_mem_nil _
  | token htoken _ ih => exact List.forall_mem_cons.2 ⟨.inr (.inr htoken), ih (List.forall_mem_cons.1 hts).2⟩
  | list _ _ ih₁ ih₂ =>
    obtain ⟨hlist, hrest⟩ := List.forall_mem_cons.1 hts
    refine List.forall_mem_cons.2 ⟨.inl rfl, List.forall_mem_append.2 ⟨ih₁ (wellFormed_list.1 hlist), ?_⟩⟩
    exact List.forall_mem_cons.2 ⟨.inr (.inl rfl), ih₂ hrest⟩

theorem texts_text {t : Tree} (ht : t.WellFormed) : Lexeme.texts t.text = t.spelling := by
  have hall := lexeme_of_mem_spellingAll (List.forall_mem_singleton.2 ht)
  rw [spellingAll, spellingAll, List.append_nil] at hall
  rw [Lexeme.texts, Lexeme.scan, toList_text, rendered_eq_spaced ht, map_text_scanFrom_spaced hall]

/-- **Printing what was parsed keeps every lexeme**, and puts parentheses around the items if they are none or several.
The text is in canonical spelling, and parsing it gives the same tree, so printing it again changes nothing. -/
theorem print_of_parse {text : String} {t : Tree} (h : parse text = .ok t) :
    (∃ ts, Items (Lexeme.texts text) ts) ∧
    (∀ ts, Items (Lexeme.texts text) ts → Lexeme.texts t.text =
      if ts.length = 1 then Lexeme.texts text else "(" :: (Lexeme.texts text ++ [")"])) ∧
    t.text.toList = spaced (Lexeme.texts t.text) ∧ parse t.text = .ok t := by
  have hwf := wellFormed_of_parse h
  obtain ⟨ts, hts, ht⟩ := parse_eq_ok_iff.1 h
  refine ⟨⟨ts, hts⟩, fun us hus => ?_, by rw [texts_text hwf, toList_text, rendered_eq_spaced hwf], parse_text hwf⟩
  obtain rfl := hts.unique hus
  rw [texts_text hwf, hts.eq_spellingAll]
  rcases eq_ofItems_iff.1 ht with rfl | ⟨hlen, rfl⟩
  · rw [if_pos List.length_singleton, spellingAll, spellingAll, List.append_nil]
  · rw [if_neg hlen, spelling]

/-- Two items with blanks of several kinds around them. -/
theorem print_of_parse_spread :
    let t := Tree.list [.atom "a", .list [.atom "b", .list []]]
    parse "a\t( b\n())" = .ok t ∧ t.text = "(a (b ()))" ∧
    Lexeme.texts t.text = "(" :: (Lexeme.texts "a\t( b\n())" ++ [")"]) ∧
    t.text.toList = spaced (Lexeme.texts t.text) ∧ parse t.text = .ok t := by
  intro t
  have hp : parse "a\t( b\n())" = .ok t := rfl
  have hitems : Items (Lexeme.texts "a\t( b\n())") [.atom "a", .list [.atom "b", .list []]] :=
    items_iff.2 ⟨rfl, by decide⟩
  have ht : t.text = "(a (b ()))" := by
    rw [← String.toList_inj, toList_text]
    rfl
  obtain ⟨-, htexts, hspaced, hagain⟩ := print_of_parse hp
  exact ⟨hp, ht, htexts _ hitems, hspaced, hagain⟩

end Tree
end PushMachine
