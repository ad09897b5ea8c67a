import PushMachine.Tree.Parse
/-!
# Reading a text character by character

`Lexeme.scan` and `Tree.build` are two passes.  Together they act on one character at a time: the word under way becomes
an atom at the next blank or parenthesis, and a parenthesis opens or closes a list (`build_scan_blank`, `build_scan_open`,
`build_scan_close`, `build_scan_letter`).  From these equations follow what the atoms of a parsed tree look like
(`wellFormed_of_parse`) and which texts parse at all (`parse_ok_iff_balanced`).
-/
namespace PushMachine
namespace Tree

open Lexeme (isDelimiter isParenthesis ofWord scanFrom)

/-! ## Tokens of a tree -/

mutual

/-- The tokens of a tree, from left to right. -/
def tokens : Tree → List String
  | .atom token => [token]
  | .list ts    => tokensAll ts

def tokensAll : List Tree → List String
  | []      => []
  | t :: ts => tokens t ++ tokensAll ts

end

theorem tokensAll_eq_flatMap : ∀ ts : List Tree, tokensAll ts = ts.flatMap tokens
  | []      => rfl
  | t :: ts => by rw [tokensAll, tokensAll_eq_flatMap ts, List.flatMap_cons]

section ForallTokens

variable {P : String → Prop}

theorem forall_tokens_atom {token : String} : (∀ s ∈ (Tree.atom token).tokens, P s) ↔ P token := by
  simp [tokens]

theorem forall_tokens_list {ts : List Tree} :
    (∀ s ∈ (Tree.list ts).tokens, P s) ↔ ∀ t ∈ ts, ∀ s ∈ t.tokens, P s := by
  simp only [tokens, tokensAll_eq_flatMap, List.mem_flatMap]
  exact ⟨fun h t ht s hs => h s ⟨t, ht, hs⟩, fun h s ⟨t, ht, hs⟩ => h t ht s hs⟩

end ForallTokens

/-- Every atom of the tree can be an atom: its token is not empty and holds no blank and no parenthesis. -/
def WellFormed (t : Tree) : Prop := ∀ token ∈ t.tokens, isToken token = true

instance (t : Tree) : Decidable t.WellFormed := inferInstanceAs (Decidable (∀ token ∈ t.tokens, isToken token = true))

theorem wellFormed_atom {token : String} : (Tree.atom token).WellFormed ↔ isToken token = true := forall_tokens_atom

theorem wellFormed_list {ts : List Tree} : (Tree.list ts).WellFormed ↔ ∀ t ∈ ts, t.WellFormed := forall_tokens_list

theorem isToken_iff {text : String} :
    isToken text = true ↔ text.toList ≠ [] ∧ ∀ c ∈ text.toList, isDelimiter c = false := by
  rw [isToken, Bool.and_eq_true, List.all_eq_true]
  refine and_congr ?_ (forall₂_congr fun c _ => by simp)
  rw [Bool.not_eq_true', ← Bool.not_eq_true, String.isEmpty_iff, ← String.toList_eq_nil_iff]

/-! ## One character -/

theorem build_cons (frames : List Frame) (done : List Tree) (l : Lexeme) (ls : List Lexeme) :
    build frames done (l :: ls) =
      if l.text = "(" then build (⟨l.offset, done⟩ :: frames) [] ls
      else if l.text = ")" then
        match frames with
        | []      => .error (.unexpectedClose l.offset)
        | f :: fs => build fs (.list done.reverse :: f.items) ls
      else build frames (.atom l.text :: done) ls := by
  cases frames <;> rw [build]

/-- The items read so far, once the word under way is over; its characters come last first. -/
def endWord (word : List Char) (done : List Tree) : List Tree :=
  match word with
  | [] => done
  | _  => .atom (String.ofList word.reverse) :: done

theorem endWord_nil (done : List Tree) : endWord [] done = done := rfl

theorem endWord_of_ne_nil {word : List Char} (h : word ≠ []) (done : List Tree) :
    endWord word done = .atom (String.ofList word.reverse) :: done := by
  cases word with
  | nil => exact absurd rfl h
  | cons c cs => rfl

/-- A word is no parenthesis, so reading it adds an atom. -/
theorem build_ofWord {word : List Char} (hw : ∀ c ∈ word, isDelimiter c = false) (frames : List Frame)
    (done : List Tree) (offset : Nat) (ls : List Lexeme) :
    build frames done (ofWord offset word ++ ls) = build frames (endWord word done) ls := by
  cases word with
  | nil => rfl
  | cons c cs =>
    have hc : isDelimiter c = false := hw c List.mem_cons_self
    have hne : ∀ p : Char, isDelimiter p = true → String.ofList (c :: cs).reverse ≠ String.singleton p := by
      intro p hp he
      have hl := congrArg String.toList he
      rw [String.toList_ofList, String.toList_singleton] at hl
      have hmem : c ∈ [p] := by rw [← hl]; simp
      rw [List.mem_singleton.1 hmem, hp] at hc
      cases hc
    have ho : String.ofList (c :: cs).reverse ≠ "(" := hne '(' rfl
    have hp : String.ofList (c :: cs).reverse ≠ ")" := hne ')' rfl
    rw [ofWord, List.cons_append, List.nil_append, build_cons, if_neg ho, if_neg hp, endWord_of_ne_nil (by simp)]
    · intro h
      cases h

section Character

variable {word : List Char} (hw : ∀ c ∈ word, isDelimiter c = false) (frames : List Frame) (done : List Tree)
  (offset : Nat)

include hw

theorem build_scan_nil :
    build frames done (scanFrom offset word []) = build frames (endWord word done) [] := by
  have h := build_ofWord hw frames done offset []
  rwa [List.append_nil] at h

theorem build_scan_blank {c : Char} (hc : Text.isBlank c = true) (cs : List Char) :
    build frames done (scanFrom offset word (c :: cs)) =
      build frames (endWord word done) (scanFrom (offset + 1) [] cs) := by
  rw [scanFrom, if_pos hc, build_ofWord hw]

theorem build_scan_open (cs : List Char) :
    build frames done (scanFrom offset word ('(' :: cs)) =
      build (⟨offset, endWord word done⟩ :: frames) [] (scanFrom (offset + 1) [] cs) := by
  rw [scanFrom, if_neg (by decide), if_pos (by decide), build_ofWord hw, build_cons]
  exact if_pos rfl

theorem build_scan_close (cs : List Char) :
    build frames done (scanFrom offset word (')' :: cs)) =
      match frames with
      | []      => .error (.unexpectedClose offset)
      | f :: fs => build fs (.list (endWord word done).reverse :: f.items) (scanFrom (offset + 1) [] cs) := by
  have hne : String.singleton ')' ≠ "(" := by decide
  rw [scanFrom, if_neg (by decide), if_pos (by decide), build_ofWord hw, build_cons, if_neg hne]
  exact if_pos rfl

omit hw in
theorem scan_letter {c : Char} (hc : isDelimiter c = false) (cs : List Char) :
    scanFrom offset word (c :: cs) = scanFrom (offset + 1) (c :: word) cs := by
  obtain ⟨hb, hp⟩ := Bool.or_eq_false_iff.1 hc
  rw [scanFrom, hb, hp]
  rfl

omit hw in
/-- What a character can be. -/
theorem delimiter_cases (c : Char) : Text.isBlank c = true ∨ c = '(' ∨ c = ')' ∨ isDelimiter c = false := by
  cases hb : Text.isBlank c with
  | true => exact .inl rfl
  | false =>
    by_cases ho : c = '('
    · exact .inr (.inl ho)
    · by_cases hp : c = ')'
      · exact .inr (.inr (.inl hp))
      · exact .inr (.inr (.inr (by simp [isDelimiter, isParenthesis, hb, ho, hp])))

end Character

/-! ## The atoms of a parsed tree -/

theorem wellFormed_ofItems {ts : List Tree} (h : ∀ t ∈ ts, t.WellFormed) : (ofItems ts).WellFormed := by
  unfold ofItems
  split
  · exact h _ List.mem_cons_self
  · exact wellFormed_list.2 h

theorem wellFormed_endWord {word : List Char} (hw : ∀ c ∈ word, isDelimiter c = false) {done : List Tree}
    (hd : ∀ t ∈ done, t.WellFormed) : ∀ t ∈ endWord word done, t.WellFormed := by
  by_cases hne : word = []
  · rw [hne, endWord_nil]
    exact hd
  · rw [endWord_of_ne_nil hne]
    refine List.forall_mem_cons.2 ⟨wellFormed_atom.2 (isToken_iff.2 ?_), hd⟩
    rw [String.toList_ofList]
    exact ⟨by simpa using hne, fun c hc => hw c (List.mem_reverse.1 hc)⟩

theorem wellFormed_of_build (cs : List Char) : ∀ {word : List Char} {frames : List Frame} {done : List Tree}
    {offset : Nat} {t : Tree}, (∀ c ∈ word, isDelimiter c = false) → (∀ f ∈ frames, ∀ u ∈ f.items, u.WellFormed) →
    (∀ u ∈ done, u.WellFormed) → build frames done (scanFrom offset word cs) = .ok t → t.WellFormed := by
  induction cs with
  | nil =>
    intro word frames done offset t hw _ hd h
    rw [build_scan_nil hw] at h
    cases frames with
    | nil =>
      cases h
      exact wellFormed_ofItems fun u hu => wellFormed_endWord hw hd u (List.mem_reverse.1 hu)
    | cons f fs => cases h
  | cons c cs ih =>
    intro word frames done offset t hw hf hd h
    have hd' := wellFormed_endWord hw hd
    have hnil : ∀ c ∈ ([] : List Char), isDelimiter c = false := fun c hc => by cases hc
    rcases delimiter_cases c with hb | rfl | rfl | hl
    · rw [build_scan_blank hw _ _ _ hb] at h
      exact ih hnil hf hd' h
    · rw [build_scan_open hw] at h
      exact ih hnil (List.forall_mem_cons.2 ⟨hd', hf⟩) (fun u hu => by cases hu) h
    · rw [build_scan_close hw] at h
      cases frames with
      | nil => cases h
      | cons f fs =>
        obtain ⟨hfi, hfs⟩ := List.forall_mem_cons.1 hf
        have hlist : (Tree.list (endWord word done).reverse).WellFormed :=
          wellFormed_list.2 fun u hu => hd' u (List.mem_reverse.1 hu)
        exact ih hnil hfs (List.forall_mem_cons.2 ⟨hlist, hfi⟩) h
    · rw [scan_letter _ hl] at h
      exact ih (List.forall_mem_cons.2 ⟨hl, hw⟩) hf hd h

/-- **Every atom of a parsed tree can be an atom.** -/
theorem wellFormed_of_parse {text : String} {t : Tree} (h : parse text = .ok t) : t.WellFormed :=
  wellFormed_of_build text.toList (fun c hc => by cases hc) (fun f hf => by cases hf) (fun u hu => by cases hu) h

/-! ## Balance -/

/-- With `depth` lists open, the text never closes more lists than are open, and in the end it has closed them all. -/
structure BalancedFrom (depth : Nat) (cs : List Char) : Prop where
  covered : ∀ p, p <+: cs → p.count ')' ≤ depth + p.count '('
  closed  : depth + cs.count '(' = cs.count ')'

/-- **The parentheses of a text are balanced.** -/
def Balanced (text : String) : Prop := BalancedFrom 0 text.toList

theorem balancedFrom_nil {depth : Nat} : BalancedFrom depth [] ↔ depth = 0 := by
  constructor
  · intro h
    simpa using h.closed
  · rintro rfl
    refine ⟨fun p hp => ?_, rfl⟩
    rw [List.prefix_nil.1 hp]
    exact Nat.le_refl _

/-- What is open after the first character decides about the rest. -/
theorem balancedFrom_cons {depth depth' : Nat} {c : Char} {cs : List Char}
    (hd : depth' + [c].count ')' = depth + [c].count '(') : BalancedFrom depth (c :: cs) ↔ BalancedFrom depth' cs := by
  have hcount : ∀ (a : Char) (q : List Char), (c :: q).count a = [c].count a + q.count a := by
    intro a q
    rw [← List.count_append, List.singleton_append]
  constructor
  · intro h
    refine ⟨fun q hq => ?_, ?_⟩
    · have := h.covered (c :: q) (List.cons_prefix_cons.2 ⟨rfl, hq⟩)
      have h₁ := hcount ')' q
      have h₂ := hcount '(' q
      omega
    · have := h.closed
      have h₁ := hcount ')' cs
      have h₂ := hcount '(' cs
      omega
  · intro h
    refine ⟨fun p hp => ?_, ?_⟩
    · rcases List.prefix_cons_iff.1 hp with rfl | ⟨q, rfl, hq⟩
      · exact Nat.zero_le _
      · have := h.covered q hq
        have h₁ := hcount ')' q
        have h₂ := hcount '(' q
        omega
    · have := h.closed
      have h₁ := hcount ')' cs
      have h₂ := hcount '(' cs
      omega

theorem ne_parenthesis_of_isBlank {c : Char} (h : Text.isBlank c = true) : c ≠ '(' ∧ c ≠ ')' := by
  constructor <;> (rintro rfl; exact absurd h (by decide))

theorem ne_parenthesis_of_letter {c : Char} (h : isDelimiter c = false) : c ≠ '(' ∧ c ≠ ')' := by
  constructor <;> (rintro rfl; exact absurd h (by decide))

/-- A character that is no parenthesis leaves open what is open. -/
theorem count_of_ne_parenthesis {c : Char} (h : c ≠ '(' ∧ c ≠ ')') (depth : Nat) :
    depth + [c].count ')' = depth + [c].count '(' := by
  have hzero : ∀ {a : Char}, c ≠ a → [c].count a = 0 := fun hne => List.count_eq_zero.2 (by simpa using hne.symm)
  rw [hzero h.1, hzero h.2]

/-- Whether the rest of a text parses depends only on how many lists are open. -/
theorem build_scan_ok_iff (cs : List Char) : ∀ {word : List Char} {frames : List Frame} {done : List Tree}
    {offset : Nat}, (∀ c ∈ word, isDelimiter c = false) →
    ((∃ t, build frames done (scanFrom offset word cs) = .ok t) ↔ BalancedFrom frames.length cs) := by
  induction cs with
  | nil =>
    intro word frames done offset hw
    rw [build_scan_nil hw, balancedFrom_nil, List.length_eq_zero_iff]
    cases frames <;> simp [build]
  | cons c cs ih =>
    intro word frames done offset hw
    have hnil : ∀ c ∈ ([] : List Char), isDelimiter c = false := fun c hc => by cases hc
    rcases delimiter_cases c with hb | rfl | rfl | hl
    · rw [build_scan_blank hw _ _ _ hb, ih hnil]
      exact (balancedFrom_cons (count_of_ne_parenthesis (ne_parenthesis_of_isBlank hb) _)).symm
    · rw [build_scan_open hw, ih hnil]
      exact (balancedFrom_cons (by simp)).symm
    · rw [build_scan_close hw]
      cases frames with
      | nil =>
        refine iff_of_false (by simp) fun h => ?_
        have := h.covered [')'] (by simp)
        simp at this
      | cons f fs =>
        dsimp only
        rw [ih hnil]
        exact (balancedFrom_cons (by simp)).symm
    · rw [scan_letter _ hl, ih (List.forall_mem_cons.2 ⟨hl, hw⟩)]
      exact (balancedFrom_cons (count_of_ne_parenthesis (ne_parenthesis_of_letter hl) _)).symm

/-- **A text parses exactly if its parentheses are balanced.** -/
theorem parse_ok_iff_balanced (text : String) : (∃ t, parse text = .ok t) ↔ Balanced text :=
  build_scan_ok_iff text.toList fun c hc => by cases hc

end Tree
end PushMachine
