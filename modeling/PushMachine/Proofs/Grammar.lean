import PushMachine.Proofs.Spelling
/-!
# The grammar of programs, and what is wrong with other texts

A program is a sequence of items, and an item is a token or a sequence of items between parentheses (`Items`).  The
parser accepts exactly the texts whose lexemes the grammar derives, and gives the tree of the derivation, of which
there is only one (`parse_eq_ok_iff`, `Items.unique`).

Any other text is refused at one place.  The first parenthesis that closes too much has balanced text before it
(`parse_eq_unexpectedClose_iff`); the last one that is never closed has balanced text after it
(`parse_eq_unclosedOpen_iff`).  Both places are said on the characters alone, by `FirstExcess` and `LastUnmatched`.
-/
namespace PushMachine

namespace Lexeme

/-- The lexemes of a text without their places. -/
def texts (text : String) : List String := (scan text).map (·.text)

end Lexeme

namespace Tree

open Lexeme (isDelimiter scanFrom ofWord)

/-! ## The lexemes of a tree -/

mutual

/-- The lexemes that a tree is written with. -/
def spelling : Tree → List String
  | .atom token => [token]
  | .list ts    => "(" :: (spellingAll ts ++ [")"])

def spellingAll : List Tree → List String
  | []      => []
  | t :: ts => spelling t ++ spellingAll ts

end

theorem spellingAll_append : ∀ ts us : List Tree, spellingAll (ts ++ us) = spellingAll ts ++ spellingAll us
  | [],      us => rfl
  | t :: ts, us => by
    rw [List.cons_append, spellingAll, spellingAll, spellingAll_append ts us, List.append_assoc]

theorem spellingAll_concat (ts : List Tree) (t : Tree) : spellingAll (ts ++ [t]) = spellingAll ts ++ t.spelling := by
  rw [spellingAll_append, spellingAll, spellingAll, List.append_nil]

/-- **The grammar**: these lexemes are written for these items, one after the other.  An item is a token, or items
between parentheses. -/
inductive Items : List String → List Tree → Prop
  | nil : Items [] []
  | token {token : String} {words : List String} {ts : List Tree} :
      isToken token = true → Items words ts → Items (token :: words) (.atom token :: ts)
  | list {inner words : List String} {us ts : List Tree} :
      Items inner us → Items words ts → Items ("(" :: (inner ++ ")" :: words)) (.list us :: ts)

theorem Items.eq_spellingAll {words : List String} {ts : List Tree} (h : Items words ts) : words = spellingAll ts := by
  induction h with
  | nil => rfl
  | token _ _ ih => rw [spellingAll, spelling, ← ih, List.singleton_append]
  | list _ _ ih₁ ih₂ => simp only [spellingAll, spelling, ← ih₁, ← ih₂, List.cons_append, List.append_assoc,
      List.nil_append]

theorem Items.wellFormed {words : List String} {ts : List Tree} (h : Items words ts) : ∀ t ∈ ts, t.WellFormed := by
  induction h with
  | nil => exact List.forall_mem_nil _
  | token htoken _ ih => exact List.forall_mem_cons.2 ⟨wellFormed_atom.2 htoken, ih⟩
  | list _ _ ih₁ ih₂ => exact List.forall_mem_cons.2 ⟨wellFormed_list.2 ih₁, ih₂⟩

mutual

theorem items_spelling_append : ∀ {t : Tree}, t.WellFormed → ∀ {words : List String} {ts : List Tree},
    Items words ts → Items (t.spelling ++ words) (t :: ts)
  | .atom token, ht, words, ts, h => .token (wellFormed_atom.1 ht) h
  | .list us, ht, words, ts, h => by
    have hlist := Items.list (items_spellingAll (wellFormed_list.1 ht)) h
    rw [spelling, List.cons_append, List.append_assoc, List.singleton_append]
    exact hlist

theorem items_spellingAll : ∀ {ts : List Tree}, (∀ t ∈ ts, t.WellFormed) → Items (spellingAll ts) ts
  | [],      _ => .nil
  | t :: ts, h => by
    obtain ⟨ht, hts⟩ := List.forall_mem_cons.1 h
    rw [spellingAll]
    exact items_spelling_append ht (items_spellingAll hts)

end

theorem items_iff {words : List String} {ts : List Tree} :
    Items words ts ↔ words = spellingAll ts ∧ ∀ t ∈ ts, t.WellFormed :=
  ⟨fun h => ⟨h.eq_spellingAll, h.wellFormed⟩, fun ⟨he, hts⟩ => he ▸ items_spellingAll hts⟩

/-! ## The parser and the grammar -/

theorem ne_parenthesis_of_isToken {token : String} (h : isToken token = true) : token ≠ "(" ∧ token ≠ ")" := by
  constructor
  · rintro rfl
    exact absurd h (by decide)
  · rintro rfl
    exact absurd h (by decide)

theorem build_items {words : List String} {ts : List Tree} (h : Items words ts) :
    ∀ {ls : List Lexeme}, ls.map (·.text) = words → ∀ (frames : List Frame) (done : List Tree) (rest : List Lexeme),
      build frames done (ls ++ rest) = build frames (ts.reverse ++ done) rest := by
  induction h with
  | nil =>
    intro ls hls frames done rest
    rw [List.map_eq_nil_iff.1 hls]
    rfl
  | @token token words ts htoken _ ih =>
    intro ls hls frames done rest
    obtain ⟨l, ls, rfl, hl, hls⟩ := List.map_eq_cons_iff.1 hls
    obtain ⟨hopen, hclose⟩ := ne_parenthesis_of_isToken htoken
    rw [List.cons_append, build_cons, hl, if_neg hopen, if_neg hclose, ih hls, List.reverse_cons, List.append_assoc]
    rfl
  | @list inner words us ts _ _ ih₁ ih₂ =>
    intro ls hls frames done rest
    obtain ⟨l, ls, rfl, hl, hls⟩ := List.map_eq_cons_iff.1 hls
    obtain ⟨is, ls, rfl, his, hls⟩ := List.map_eq_append_iff.1 hls
    obtain ⟨r, ls, rfl, hr, hls⟩ := List.map_eq_cons_iff.1 hls
    have hne : (")" : String) ≠ "(" := by decide
    rw [List.cons_append, build_cons, hl, if_pos rfl, List.append_assoc, ih₁ his, List.cons_append, build_cons, hr,
      if_neg hne, if_pos rfl]
    dsimp only
    rw [ih₂ hls, List.append_nil, List.reverse_reverse, List.reverse_cons, List.append_assoc]
    rfl

theorem parse_of_items {text : String} {ts : List Tree} (h : Items (Lexeme.texts text) ts) :
    parse text = .ok (ofItems ts) := by
  have hb := build_items h rfl [] [] []
  rw [List.append_nil, List.append_nil] at hb
  rw [parse, hb, build, List.reverse_reverse]

/-- **The grammar is unambiguous.** -/
theorem Items.unique {words : List String} {ts us : List Tree} (ht : Items words ts) (hu : Items words us) :
    ts = us := by
  -- a list of the items parses to itself, whereas the items alone may be one tree
  have hwrap : ∀ {vs : List Tree}, Items words vs →
      build [] [] (("(" :: (words ++ [")"])).map fun w => ⟨w, 0⟩) = .ok (.list vs) := by
    intro vs hv
    have hlexemes :
        (("(" :: (words ++ [")"])).map fun w => (⟨w, 0⟩ : Lexeme)).map (·.text) = "(" :: (words ++ [")"]) := by
      rw [List.map_map]
      exact List.map_id _
    have hb := build_items (.list hv .nil) hlexemes [] [] []
    rw [List.append_nil] at hb
    rw [hb]
    rfl
  have he := (hwrap ht).symm.trans (hwrap hu)
  cases he
  rfl

/-- The lexemes that were read when `frames` are open and `done` stands in the innermost list. -/
def consumed : List Frame → List Tree → List String
  | [],          done => spellingAll done.reverse
  | f :: frames, done => consumed frames f.items ++ "(" :: spellingAll done.reverse

theorem consumed_open (frames : List Frame) (done : List Tree) (offset : Nat) :
    consumed (⟨offset, done⟩ :: frames) [] = consumed frames done ++ ["("] := rfl

theorem consumed_item (frames : List Frame) (done : List Tree) (t : Tree) :
    consumed frames (t :: done) = consumed frames done ++ t.spelling := by
  cases frames with
  | nil => rw [consumed, consumed, List.reverse_cons, spellingAll_concat]
  | cons f fs => rw [consumed, consumed, List.reverse_cons, spellingAll_concat, List.append_assoc, List.cons_append]

theorem consumed_close (f : Frame) (frames : List Frame) (done : List Tree) :
    consumed frames (.list done.reverse :: f.items) = consumed (f :: frames) done ++ [")"] := by
  rw [consumed_item, consumed, spelling, List.append_assoc, List.cons_append]

theorem spelling_of_build : ∀ {ls : List Lexeme} {frames : List Frame} {done : List Tree} {t : Tree},
    build frames done ls = .ok t → ∃ ts, spellingAll ts = consumed frames done ++ ls.map (·.text) ∧ t = ofItems ts
  | [], frames, done, t, h => by
    cases frames with
    | nil =>
      cases h
      exact ⟨done.reverse, by rw [consumed, List.map_nil, List.append_nil], rfl⟩
    | cons f fs => cases h
  | l :: ls, frames, done, t, h => by
    rw [build_cons] at h
    split at h
    · rename_i hl
      obtain ⟨ts, hts, rfl⟩ := spelling_of_build h
      exact ⟨ts, by rw [hts, consumed_open, List.map_cons, hl, List.append_assoc]; rfl, rfl⟩
    · split at h
      · rename_i hl
        cases frames with
        | nil => cases h
        | cons f fs =>
          obtain ⟨ts, hts, rfl⟩ := spelling_of_build h
          exact ⟨ts, by rw [hts, consumed_close, List.map_cons, hl, List.append_assoc]; rfl, rfl⟩
      · obtain ⟨ts, hts, rfl⟩ := spelling_of_build h
        exact ⟨ts, by rw [hts, consumed_item, spelling, List.map_cons, List.append_assoc]; rfl, rfl⟩

theorem wellFormed_of_ofItems {ts : List Tree} (h : (ofItems ts).WellFormed) : ∀ t ∈ ts, t.WellFormed := by
  unfold ofItems at h
  split at h
  · exact List.forall_mem_singleton.2 h
  · exact wellFormed_list.1 h

/-- **The tree of a text is the one that the grammar derives.** -/
theorem parse_eq_ok_iff {text : String} {t : Tree} :
    parse text = .ok t ↔ ∃ ts, Items (Lexeme.texts text) ts ∧ t = ofItems ts := by
  constructor
  · intro h
    have hwf := wellFormed_of_parse h
    obtain ⟨ts, hts, rfl⟩ := spelling_of_build h
    exact ⟨ts, items_iff.2 ⟨hts.symm, wellFormed_of_ofItems hwf⟩, rfl⟩
  · rintro ⟨ts, hts, rfl⟩
    exact parse_of_items hts

/-! ## Where parentheses close too much -/

/-- The character at `n` is the first closing parenthesis that no opening one is left for. -/
structure FirstExcess (cs : List Char) (n : Nat) : Prop where
  close  : cs[n]? = some ')'
  excess : (cs.take (n + 1)).count '(' < (cs.take (n + 1)).count ')'
  first  : ∀ k ≤ n, (cs.take k).count ')' ≤ (cs.take k).count '('

theorem exists_balancedFrom_of_excess : ∀ (cs : List Char) (depth : Nat),
    (∃ p, p <+: cs ∧ depth + p.count '(' < p.count ')') →
      ∃ before rest, cs = before ++ ')' :: rest ∧ BalancedFrom depth before
  | [], depth, ⟨p, hp, hlt⟩ => by
    rw [List.prefix_nil.1 hp] at hlt
    exact absurd hlt (by simp)
  | c :: cs, depth, ⟨p, hp, hlt⟩ => by
    rcases List.prefix_cons_iff.1 hp with rfl | ⟨q, rfl, hq⟩
    · exact absurd hlt (by simp)
    · rw [List.count_cons, List.count_cons] at hlt
      by_cases hclose : c = ')'
      · subst hclose
        cases depth with
        | zero => exact ⟨[], cs, rfl, balancedFrom_nil.2 rfl⟩
        | succ depth =>
          have hne : ((')' : Char) == '(') = false := by decide
          simp only [beq_self_eq_true, if_true, hne, Bool.false_eq_true, if_false] at hlt
          obtain ⟨before, rest, rfl, hb⟩ := exists_balancedFrom_of_excess cs depth ⟨q, hq, by omega⟩
          exact ⟨')' :: before, rest, rfl, (balancedFrom_cons (by simp)).2 hb⟩
      · have hcount : [c].count ')' = 0 := List.count_eq_zero.2 (by simpa using Ne.symm hclose)
        obtain ⟨before, rest, rfl, hb⟩ := exists_balancedFrom_of_excess cs (depth + [c].count '(')
          ⟨q, hq, by rw [List.count_singleton]; simp only [beq_iff_eq, hclose, if_false] at hlt ⊢; omega⟩
        exact ⟨c :: before, rest, rfl, (balancedFrom_cons (by rw [hcount, Nat.add_zero])).2 hb⟩

theorem count_concat_close (cs : List Char) :
    (cs ++ [')']).count '(' = cs.count '(' ∧ (cs ++ [')']).count ')' = cs.count ')' + 1 := by
  rw [List.count_append, List.count_append]
  exact ⟨rfl, rfl⟩

theorem excess_of_balanced {before : List Char} (rest : List Char) (h : BalancedFrom 0 before) :
    ∃ p, p <+: before ++ ')' :: rest ∧ p.count '(' < p.count ')' := by
  refine ⟨before ++ [')'], ⟨rest, by rw [List.append_assoc, List.singleton_append]⟩, ?_⟩
  have hclosed := h.closed
  obtain ⟨hopen, hclose⟩ := count_concat_close before
  omega

theorem firstExcess_iff {cs : List Char} {n : Nat} :
    FirstExcess cs n ↔ ∃ before rest, cs = before ++ ')' :: rest ∧ BalancedFrom 0 before ∧ n = before.length := by
  constructor
  · intro h
    obtain ⟨hlt, hget⟩ := List.getElem?_eq_some_iff.1 h.close
    have htake : cs.take (n + 1) = cs.take n ++ [')'] := by rw [List.take_add_one, h.close]; rfl
    refine ⟨cs.take n, cs.drop (n + 1), ?_, ⟨fun p hp => ?_, ?_⟩, by rw [List.length_take]; omega⟩
    · rw [← List.singleton_append, ← List.append_assoc, ← htake, List.take_append_drop]
    · have hle := hp.length_le
      rw [List.length_take] at hle
      rw [List.prefix_iff_eq_take.1 hp, List.take_take, Nat.min_eq_left (by omega), Nat.zero_add]
      exact h.first p.length (by omega)
    · have hexcess := h.excess
      have hfirst := h.first n (Nat.le_refl n)
      obtain ⟨hopen, hclose⟩ := count_concat_close (cs.take n)
      rw [htake] at hexcess
      omega
  · rintro ⟨before, rest, rfl, hb, rfl⟩
    have htake : (before ++ ')' :: rest).take (before.length + 1) = before ++ [')'] := by
      rw [List.take_length_add_append]
      rfl
    refine ⟨by simp, ?_, fun k hk => ?_⟩
    · have hclosed := hb.closed
      obtain ⟨hopen, hclose⟩ := count_concat_close before
      rw [htake]
      omega
    · rw [List.take_append_of_le_length hk]
      have hcovered := hb.covered _ (List.take_prefix k before)
      omega

/-- Reading stops at a parenthesis that closes too much exactly if the text before it closes all lists. -/
theorem build_scan_unexpectedClose_iff (cs : List Char) : ∀ {word : List Char} {frames : List Frame} {done : List Tree}
    {offset n : Nat}, (∀ c ∈ word, isDelimiter c = false) →
    (build frames done (scanFrom offset word cs) = .error (.unexpectedClose n) ↔
      ∃ before rest, cs = before ++ ')' :: rest ∧ BalancedFrom frames.length before ∧ n = offset + before.length) := by
  induction cs with
  | nil =>
    intro word frames done offset n hw
    rw [build_scan_nil hw]
    cases frames <;> simp [build]
  | cons c cs ih =>
    intro word frames done offset n hw
    have hnil : ∀ c ∈ ([] : List Char), isDelimiter c = false := fun c hc => by cases hc
    -- past a character that closes nothing too much, the place is one further on
    have hcons : ∀ {depth depth' : Nat}, (c = ')' → depth ≠ 0) → depth' + [c].count ')' = depth + [c].count '(' →
        ((∃ before rest, cs = before ++ ')' :: rest ∧ BalancedFrom depth' before ∧ n = offset + 1 + before.length) ↔
          ∃ before rest, c :: cs = before ++ ')' :: rest ∧ BalancedFrom depth before ∧ n = offset + before.length) := by
      intro depth depth' hc hd
      constructor
      · rintro ⟨before, rest, rfl, hb, rfl⟩
        exact ⟨c :: before, rest, rfl, (balancedFrom_cons hd).2 hb, by rw [List.length_cons]; omega⟩
      · rintro ⟨before, rest, he, hb, rfl⟩
        cases before with
        | nil =>
          cases he
          exact absurd (balancedFrom_nil.1 hb) (hc rfl)
        | cons d before =>
          cases he
          exact ⟨before, rest, rfl, (balancedFrom_cons hd).1 hb, by rw [List.length_cons]; omega⟩
    rcases delimiter_cases c with hb | rfl | rfl | hl
    · have hne := ne_parenthesis_of_isBlank hb
      rw [build_scan_blank hw _ _ _ hb, ih hnil]
      exact hcons (fun h => absurd h hne.2) (count_of_ne_parenthesis hne _)
    · rw [build_scan_open hw, ih hnil]
      exact hcons (fun h => absurd h (by decide)) (by simp)
    · rw [build_scan_close hw]
      cases frames with
      | nil =>
        dsimp only
        rw [Except.error.injEq, ParseError.unexpectedClose.injEq]
        constructor
        · rintro rfl
          exact ⟨[], cs, rfl, balancedFrom_nil.2 rfl, rfl⟩
        · rintro ⟨before, rest, he, hb, rfl⟩
          cases before with
          | nil => rfl
          | cons d before =>
            cases he
            have := hb.covered [')'] (by simp)
            exact absurd this (by decide)
      | cons f fs =>
        dsimp only
        rw [ih hnil]
        exact hcons (fun _ => by simp) (by simp)
    · have hne := ne_parenthesis_of_letter hl
      rw [scan_letter _ hl, ih (List.forall_mem_cons.2 ⟨hl, hw⟩)]
      exact hcons (fun h => absurd h hne.2) (count_of_ne_parenthesis hne _)

/-- **A text is refused for closing too much exactly at the first place where it does.** -/
theorem parse_eq_unexpectedClose_iff {text : String} {n : Nat} :
    parse text = .error (.unexpectedClose n) ↔ FirstExcess text.toList n := by
  rw [parse, Lexeme.scan, build_scan_unexpectedClose_iff text.toList (List.forall_mem_nil _), firstExcess_iff]
  simp only [List.length_nil, Nat.zero_add]

/-! ## Where a parenthesis is never closed -/

/-- The character at `n` opens a list, and no closing parenthesis after it matches it: none has balanced text between
the two. -/
def Unmatched (cs : List Char) (n : Nat) : Prop :=
  ∃ before after, cs = before ++ '(' :: after ∧ before.length = n ∧
    ∀ inner rest, after = inner ++ ')' :: rest → ¬ BalancedFrom 0 inner

/-- The last list that is never closed opens at `n`. -/
structure LastUnmatched (cs : List Char) (n : Nat) : Prop where
  unmatched : Unmatched cs n
  last      : ∀ k, Unmatched cs k → k ≤ n

theorem covered_of_unmatched {after : List Char}
    (h : ∀ inner rest, after = inner ++ ')' :: rest → ¬ BalancedFrom 0 inner) {p : List Char} (hp : p <+: after) :
    p.count ')' ≤ p.count '(' := by
  refine Nat.le_of_not_lt fun hlt => ?_
  obtain ⟨inner, rest, he, hb⟩ := exists_balancedFrom_of_excess after 0 ⟨p, hp, by omega⟩
  exact h inner rest he hb

/-- A parenthesis with balanced text after it is the last one that is never closed. -/
theorem lastUnmatched_of_balanced {before after : List Char} (h : BalancedFrom 0 after) :
    LastUnmatched (before ++ '(' :: after) before.length where
  unmatched := by
    refine ⟨before, after, rfl, rfl, ?_⟩
    rintro inner rest rfl hb
    obtain ⟨p, hp, hlt⟩ := excess_of_balanced rest hb
    have := h.covered p hp
    omega
  last := by
    rintro k ⟨before', after', he, rfl, hun⟩
    refine Nat.le_of_not_lt fun hlt => ?_
    -- an unmatched parenthesis further on would stand in the balanced text and keep it open
    obtain ⟨mid, hmid⟩ : ∃ mid, before' = before ++ '(' :: mid ∧ after = mid ++ '(' :: after' := by
      rcases List.append_eq_append_iff.1 he with ⟨as, has, hcs⟩ | ⟨as, has, hcs⟩
      · cases as with
        | nil =>
          rw [has, List.append_nil] at hlt
          exact absurd hlt (Nat.lt_irrefl _)
        | cons a as =>
          cases hcs
          exact ⟨as, has, rfl⟩
      · rw [has, List.length_append] at hlt
        omega
    obtain ⟨-, rfl⟩ := hmid
    have hmid := h.covered mid (List.prefix_append _ _)
    have hafter := covered_of_unmatched hun (List.prefix_refl after')
    have hclosed := h.closed
    have hne : ('(' == ')') = false := by decide
    simp only [List.count_append, List.count_cons, beq_self_eq_true, if_true, hne, Bool.false_eq_true, if_false]
      at hclosed
    omega

/-- Where reading ends inside a list, the list opens in the text that was read, with balanced text after it, or it was
the `j`-th open list before, and the text closes the lists inside it. -/
theorem balanced_of_build_unclosedOpen (cs : List Char) : ∀ {word : List Char} {frames : List Frame} {done : List Tree}
    {offset n : Nat}, (∀ c ∈ word, isDelimiter c = false) →
    build frames done (scanFrom offset word cs) = .error (.unclosedOpen n) →
      (∃ before after, cs = before ++ '(' :: after ∧ BalancedFrom 0 after ∧ n = offset + before.length) ∨
        ∃ (j : Nat) (f : Frame), frames[j]? = some f ∧ f.opened = n ∧ BalancedFrom j cs := by
  induction cs with
  | nil =>
    intro word frames done offset n hw h
    rw [build_scan_nil hw] at h
    cases frames with
    | nil => cases h
    | cons f fs =>
      cases h
      exact .inr ⟨0, f, rfl, rfl, balancedFrom_nil.2 rfl⟩
  | cons c cs ih =>
    intro word frames done offset n hw h
    have hnil : ∀ c ∈ ([] : List Char), isDelimiter c = false := fun c hc => by cases hc
    have hinner :
        (∃ before after, cs = before ++ '(' :: after ∧ BalancedFrom 0 after ∧ n = offset + 1 + before.length) →
        ∃ before after, c :: cs = before ++ '(' :: after ∧ BalancedFrom 0 after ∧ n = offset + before.length := by
      rintro ⟨before, after, rfl, hb, rfl⟩
      exact ⟨c :: before, after, rfl, hb, by rw [List.length_cons]; omega⟩
    rcases delimiter_cases c with hb | rfl | rfl | hl
    · have hsame := count_of_ne_parenthesis (ne_parenthesis_of_isBlank hb)
      rw [build_scan_blank hw _ _ _ hb] at h
      rcases ih hnil h with hin | ⟨j, f, hf, hn, hj⟩
      · exact .inl (hinner hin)
      · exact .inr ⟨j, f, hf, hn, (balancedFrom_cons (hsame j)).2 hj⟩
    · rw [build_scan_open hw] at h
      rcases ih hnil h with hin | ⟨j, f, hf, hn, hj⟩
      · exact .inl (hinner hin)
      · cases j with
        | zero =>
          cases hf
          exact .inl ⟨[], cs, rfl, hj, hn.symm⟩
        | succ j => exact .inr ⟨j, f, hf, hn, (balancedFrom_cons (by simp)).2 hj⟩
    · rw [build_scan_close hw] at h
      cases frames with
      | nil => cases h
      | cons g fs =>
        rcases ih hnil h with hin | ⟨j, f, hf, hn, hj⟩
        · exact .inl (hinner hin)
        · exact .inr ⟨j + 1, f, hf, hn, (balancedFrom_cons (by simp)).2 hj⟩
    · have hsame := count_of_ne_parenthesis (ne_parenthesis_of_letter hl)
      rw [scan_letter _ hl] at h
      rcases ih (List.forall_mem_cons.2 ⟨hl, hw⟩) h with hin | ⟨j, f, hf, hn, hj⟩
      · exact .inl (hinner hin)
      · exact .inr ⟨j, f, hf, hn, (balancedFrom_cons (hsame j)).2 hj⟩

theorem lastUnmatched_of_parse {text : String} {n : Nat} (h : parse text = .error (.unclosedOpen n)) :
    LastUnmatched text.toList n := by
  rcases balanced_of_build_unclosedOpen text.toList (List.forall_mem_nil _) h with
    ⟨before, after, he, hb, hn⟩ | ⟨j, f, hf, -⟩
  · rw [he, hn, Nat.zero_add]
    exact lastUnmatched_of_balanced hb
  · cases hf

/-! ## All texts -/

/-- No beginning of the text closes more lists than it opens. -/
def Covered (text : String) : Prop := ∀ p, p <+: text.toList → p.count ')' ≤ p.count '('

theorem exists_unexpectedClose_iff {text : String} :
    (∃ n, parse text = .error (.unexpectedClose n)) ↔ ∃ p, p <+: text.toList ∧ p.count '(' < p.count ')' := by
  simp only [parse_eq_unexpectedClose_iff, firstExcess_iff]
  constructor
  · rintro ⟨n, before, rest, he, hb, -⟩
    rw [he]
    exact excess_of_balanced rest hb
  · rintro ⟨p, hp, hlt⟩
    obtain ⟨before, rest, he, hb⟩ := exists_balancedFrom_of_excess _ 0 ⟨p, hp, by omega⟩
    exact ⟨before.length, before, rest, he, hb, rfl⟩

theorem not_covered_iff {text : String} :
    ¬ Covered text ↔ ∃ p, p <+: text.toList ∧ p.count '(' < p.count ')' := by
  simp only [Covered, Classical.not_forall, Nat.not_le, exists_prop]

theorem balanced_iff {text : String} :
    Balanced text ↔ Covered text ∧ text.toList.count '(' = text.toList.count ')' := by
  constructor
  · intro h
    have hclosed := h.closed
    exact ⟨fun p hp => by have := h.covered p hp; omega, by omega⟩
  · rintro ⟨hc, he⟩
    exact ⟨fun p hp => by have := hc p hp; omega, by omega⟩

theorem exists_unclosedOpen_iff {text : String} :
    (∃ n, parse text = .error (.unclosedOpen n)) ↔
      Covered text ∧ text.toList.count ')' < text.toList.count '(' := by
  constructor
  · rintro ⟨n, hn⟩
    have hcovered : Covered text := by
      refine Classical.byContradiction fun hc => ?_
      obtain ⟨k, hk⟩ := exists_unexpectedClose_iff.2 (not_covered_iff.1 hc)
      rw [hn] at hk
      cases hk
    have hle := hcovered _ (List.prefix_refl _)
    refine ⟨hcovered, Nat.lt_of_le_of_ne hle fun he => ?_⟩
    obtain ⟨t, ht⟩ := (parse_ok_iff_balanced text).2 (balanced_iff.2 ⟨hcovered, he.symm⟩)
    rw [hn] at ht
    cases ht
  · rintro ⟨hcovered, hlt⟩
    cases hr : parse text with
    | ok t =>
      have := (balanced_iff.1 ((parse_ok_iff_balanced text).1 ⟨t, hr⟩)).2
      omega
    | error e =>
      cases e with
      | unexpectedClose n => exact absurd hcovered (not_covered_iff.2 (exists_unexpectedClose_iff.1 ⟨n, hr⟩))
      | unclosedOpen n => exact ⟨n, rfl⟩

/-- **A text is refused for a list that is never closed exactly at the last such list.** -/
theorem parse_eq_unclosedOpen_iff {text : String} {n : Nat} :
    parse text = .error (.unclosedOpen n) ↔
      (Covered text ∧ text.toList.count ')' < text.toList.count '(') ∧ LastUnmatched text.toList n := by
  constructor
  · intro h
    exact ⟨exists_unclosedOpen_iff.1 ⟨n, h⟩, lastUnmatched_of_parse h⟩
  · rintro ⟨hopen, hlast⟩
    obtain ⟨k, hk⟩ := exists_unclosedOpen_iff.2 hopen
    have hlast' := lastUnmatched_of_parse hk
    have hkn := hlast.last k hlast'.unmatched
    have hnk := hlast'.last n hlast.unmatched
    rwa [Nat.le_antisymm hkn hnk] at hk

theorem ofToken_of_mem_ofWord {word : List Char} (hw : ∀ c ∈ word, isDelimiter c = false) {offset : Nat} {l : Lexeme}
    (h : l ∈ ofWord offset word) : ofToken l.text = .ok (.atom l.text) := by
  cases word with
  | nil => cases h
  | cons c cs =>
    rw [List.mem_singleton.1 h]
    refine ofToken_of_isToken (isToken_ofList (by simp) fun d hd => ?_)
    exact hw d (List.mem_reverse.1 hd)

theorem ofToken_of_mem_scanFrom : ∀ (cs : List Char) {offset : Nat} {word : List Char},
    (∀ c ∈ word, isDelimiter c = false) →
    ∀ l ∈ scanFrom offset word cs, l.text = "(" ∨ l.text = ")" ∨ ofToken l.text = .ok (.atom l.text)
  | [], offset, word, hw, l, h => .inr (.inr (ofToken_of_mem_ofWord hw h))
  | c :: cs, offset, word, hw, l, h => by
    have hnil : ∀ c ∈ ([] : List Char), isDelimiter c = false := fun c hc => by cases hc
    rw [scanFrom] at h
    split at h
    · rcases List.mem_append.1 h with h | h
      · exact .inr (.inr (ofToken_of_mem_ofWord hw h))
      · exact ofToken_of_mem_scanFrom cs hnil l h
    · rename_i hb
      split at h
      · rename_i hp
        rcases List.mem_append.1 h with h | h
        · exact .inr (.inr (ofToken_of_mem_ofWord hw h))
        · rcases List.mem_cons.1 h with rfl | h
          · rw [Lexeme.isParenthesis, Bool.or_eq_true, beq_iff_eq, beq_iff_eq] at hp
            rcases hp with rfl | rfl
            · exact .inl rfl
            · exact .inr (.inl rfl)
          · exact ofToken_of_mem_scanFrom cs hnil l h
      · rename_i hp
        have hc : isDelimiter c = false := by
          rw [isDelimiter, Bool.or_eq_false_iff]
          exact ⟨Bool.not_eq_true _ ▸ hb, Bool.not_eq_true _ ▸ hp⟩
        exact ofToken_of_mem_scanFrom cs (List.forall_mem_cons.2 ⟨hc, hw⟩) l h

theorem eq_ofItems_iff {t : Tree} {ts : List Tree} : t = ofItems ts ↔ ts = [t] ∨ (ts.length ≠ 1 ∧ t = .list ts) := by
  rcases ts with _ | ⟨u, _ | ⟨v, ts⟩⟩
  · simp [ofItems]
  · simp [ofItems, eq_comm]
  · simp [ofItems]

/-- **What the parser says of a text.** -/
structure Judged (text : String) : Prop where
  /-- Every word makes an atom, so nothing but parentheses can be wrong. -/
  atoms : ∀ l ∈ Lexeme.scan text, l.text = "(" ∨ l.text = ")" ∨ ofToken l.text = .ok (.atom l.text)
  /-- It closes too much if some beginning of it does, and the place is the first where it does. -/
  unexpectedClose : (∃ n, parse text = .error (.unexpectedClose n)) ↔
    ∃ p, p <+: text.toList ∧ p.count '(' < p.count ')'
  unexpectedCloseAt : ∀ n, parse text = .error (.unexpectedClose n) ↔ FirstExcess text.toList n
  /-- Otherwise it leaves a list open if it opens more than it closes, and the place is the last list left open. -/
  unclosedOpen : (∃ n, parse text = .error (.unclosedOpen n)) ↔
    Covered text ∧ text.toList.count ')' < text.toList.count '('
  unclosedOpenAt : ∀ n, parse text = .error (.unclosedOpen n) ↔
    (Covered text ∧ text.toList.count ')' < text.toList.count '(') ∧ LastUnmatched text.toList n
  /-- Otherwise it is accepted. -/
  accepted : (∃ t, parse text = .ok t) ↔ Covered text ∧ text.toList.count '(' = text.toList.count ')'
  /-- Its tree is the only item that the grammar derives, or the list of the items if they are none or several. -/
  tree : ∀ t, parse text = .ok t ↔
    ∃ ts, Items (Lexeme.texts text) ts ∧ (ts = [t] ∨ (ts.length ≠ 1 ∧ t = .list ts))
  unique : ∀ ts us, Items (Lexeme.texts text) ts → Items (Lexeme.texts text) us → ts = us

/-- **The parser accepts the balanced texts, with the tree of the grammar, and refuses the others where they go
wrong.** -/
theorem parse_judged (text : String) : Judged text where
  atoms := ofToken_of_mem_scanFrom text.toList (List.forall_mem_nil _)
  unexpectedClose := exists_unexpectedClose_iff
  unexpectedCloseAt _ := parse_eq_unexpectedClose_iff
  unclosedOpen := exists_unclosedOpen_iff
  unclosedOpenAt _ := parse_eq_unclosedOpen_iff
  accepted := (parse_ok_iff_balanced text).trans balanced_iff
  tree t := by
    rw [parse_eq_ok_iff]
    exact exists_congr fun ts => and_congr_right fun _ => eq_ofItems_iff
  unique _ _ ht hu := ht.unique hu

-- of two lists left open the inner one is reported, even behind one that is closed
example : parse "a ( b ( c (d) e" = .error (.unclosedOpen 6) := rfl

end Tree
end PushMachine
