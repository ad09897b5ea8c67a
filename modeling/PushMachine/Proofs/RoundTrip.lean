import PushMachine.Proofs.Parsing
import PushMachine.Tree.Print
/-!
# Reading back what was written

The canonical text of a tree is written piece by piece; `rendered` is the same text by recursion on the tree
(`toList_text`).  Reading it adds exactly that tree to the items of the innermost open list, whatever was read before and
whatever follows, as long as what follows does not run into it (`build_rendered`).  So the text of a tree determines the
tree (`parse_text`).
-/
namespace PushMachine
namespace Tree

open Lexeme (isDelimiter scanFrom)

/-! ## The text by recursion -/

mutual

/-- The text of a tree, by recursion on the tree. -/
def rendered : Tree → List Char
  | .atom token => token.toList
  | .list ts    => '(' :: (renderedAll false ts ++ [')'])

/-- The texts of several trees, one space apart; `gap` says whether a space has to come before the first. -/
def renderedAll (gap : Bool) : List Tree → List Char
  | []      => []
  | t :: ts => (if gap then [' '] else []) ++ rendered t ++ renderedAll true ts

end

/-- The text of the pieces that are still to be written. -/
def renderedPieces (gap : Bool) : List Piece → List Char
  | []            => []
  | .close :: ps  => ')' :: renderedPieces true ps
  | .tree t :: ps => (if gap then [' '] else []) ++ rendered t ++ renderedPieces true ps

theorem renderedPieces_list (ps : List Piece) : ∀ (gap : Bool) (ts : List Tree),
    renderedPieces gap (ts.map .tree ++ .close :: ps) = renderedAll gap ts ++ ')' :: renderedPieces true ps
  | gap, []      => by rw [renderedAll]; rfl
  | gap, t :: ts => by
    rw [List.map_cons, List.cons_append, renderedPieces, renderedPieces_list ps true ts, renderedAll]
    simp only [List.append_assoc]

theorem toList_textFrom (out : String) (gap : Bool) (ps : List Piece) :
    (textFrom out gap ps).toList = out.toList ++ renderedPieces gap ps := by
  fun_induction textFrom out gap ps with
  | case1 out gap => simp [renderedPieces]
  | case2 out gap ps ih => rw [ih]; simp [renderedPieces]
  | case3 out gap token ps ih =>
    rw [dite_eq_ite] at ih
    rw [ih]
    cases gap <;> simp [renderedPieces, rendered]
  | case4 out gap ts ps ih =>
    rw [dite_eq_ite, List.map_subtype (fun _ _ => rfl), List.unattach_attach, renderedPieces_list] at ih
    rw [ih]
    cases gap <;> simp [renderedPieces, rendered]

/-- **The canonical text is the recursive one.** -/
theorem toList_text (t : Tree) : t.text.toList = t.rendered := by
  rw [text, toList_textFrom]
  simp [renderedPieces]

/-! ## Reading it -/

/-- What follows a tree without running into it: nothing, or a blank or a parenthesis first. -/
def Stops (rest : List Char) : Prop := ∀ c ∈ rest.head?, isDelimiter c = true

theorem stops_cons {c : Char} {cs : List Char} (h : isDelimiter c = true) : Stops (c :: cs) := by
  intro d hd
  cases hd
  exact h

/-- A word is over where what follows stops it. -/
theorem build_scan_stops {word : List Char} (hw : ∀ c ∈ word, isDelimiter c = false) {rest : List Char}
    (hs : Stops rest) (frames : List Frame) (done : List Tree) (offset : Nat) :
    build frames done (scanFrom offset word rest) = build frames (endWord word done) (scanFrom offset [] rest) := by
  have hnil : ∀ c ∈ ([] : List Char), isDelimiter c = false := fun c hc => by cases hc
  cases rest with
  | nil => rw [build_scan_nil hw, build_scan_nil hnil, endWord_nil]
  | cons c cs =>
    have hc := hs c rfl
    rcases delimiter_cases c with hb | rfl | rfl | hl
    · rw [build_scan_blank hw _ _ _ hb, build_scan_blank hnil _ _ _ hb, endWord_nil]
    · rw [build_scan_open hw, build_scan_open hnil, endWord_nil]
    · rw [build_scan_close hw, build_scan_close hnil, endWord_nil]
    · rw [hc] at hl
      cases hl

theorem scan_letters {cs : List Char} (hcs : ∀ c ∈ cs, isDelimiter c = false) (rest : List Char) :
    ∀ (offset : Nat) (word : List Char),
      scanFrom offset word (cs ++ rest) = scanFrom (offset + cs.length) (cs.reverse ++ word) rest := by
  induction cs with
  | nil =>
    intro offset word
    rfl
  | cons c cs ih =>
    intro offset word
    obtain ⟨hc, hcs⟩ := List.forall_mem_cons.1 hcs
    rw [List.cons_append, scan_letter _ hc, ih hcs, List.length_cons, List.reverse_cons, List.append_assoc]
    congr 1
    omega

theorem build_scan_token {token : String} (ht : isToken token = true) {rest : List Char} (hs : Stops rest)
    (frames : List Frame) (done : List Tree) (offset : Nat) :
    build frames done (scanFrom offset [] (token.toList ++ rest)) =
      build frames (.atom token :: done) (scanFrom (offset + token.toList.length) [] rest) := by
  obtain ⟨hne, hcs⟩ := isToken_iff.1 ht
  have hrev : ∀ c ∈ token.toList.reverse ++ [], isDelimiter c = false := by
    intro c hc
    rw [List.append_nil] at hc
    exact hcs c (List.mem_reverse.1 hc)
  rw [scan_letters hcs, build_scan_stops hrev hs, endWord_of_ne_nil (by simpa using hne)]
  simp only [List.append_nil, List.reverse_reverse, String.ofList_toList]

mutual

/-- **Reading the text of a tree adds the tree** to the items of the innermost open list. -/
theorem build_rendered : ∀ {t : Tree}, t.WellFormed → ∀ {rest : List Char}, Stops rest →
    ∀ (frames : List Frame) (done : List Tree) (offset : Nat),
      build frames done (scanFrom offset [] (t.rendered ++ rest)) =
        build frames (t :: done) (scanFrom (offset + t.rendered.length) [] rest)
  | .atom token, ht, rest, hs, frames, done, offset => by
    rw [rendered]
    exact build_scan_token (wellFormed_atom.1 ht) hs frames done offset
  | .list ts, ht, rest, hs, frames, done, offset => by
    have hnil : ∀ c ∈ ([] : List Char), isDelimiter c = false := fun c hc => by cases hc
    have hclose : Stops (')' :: rest) := stops_cons rfl
    rw [rendered, List.cons_append, List.append_assoc, build_scan_open hnil, List.cons_append, List.nil_append,
      build_renderedAll (wellFormed_list.1 ht) hclose, build_scan_close hnil]
    simp only [endWord_nil, List.append_nil, List.reverse_reverse, List.length_cons, List.length_append,
      List.length_nil]
    congr 2
    omega

theorem build_renderedAll : ∀ {ts : List Tree}, (∀ t ∈ ts, t.WellFormed) → ∀ {rest : List Char}, Stops rest →
    ∀ {gap : Bool} (frames : List Frame) (done : List Tree) (offset : Nat),
      build frames done (scanFrom offset [] (renderedAll gap ts ++ rest)) =
        build frames (ts.reverse ++ done) (scanFrom (offset + (renderedAll gap ts).length) [] rest)
  | [], _, rest, _, gap, frames, done, offset => by
    rw [renderedAll]
    rfl
  | t :: ts, hts, rest, hs, gap, frames, done, offset => by
    obtain ⟨ht, hts⟩ := List.forall_mem_cons.1 hts
    have hnil : ∀ c ∈ ([] : List Char), isDelimiter c = false := fun c hc => by cases hc
    -- what follows the first tree is a space before the next one, or what follows the last one
    have hstop : Stops (renderedAll true ts ++ rest) := by
      cases ts with
      | nil => rw [renderedAll]; exact hs
      | cons u us => rw [renderedAll]; exact stops_cons rfl
    cases gap with
    | false =>
      rw [renderedAll, if_neg (by decide), List.nil_append, List.append_assoc, build_rendered ht hstop,
        build_renderedAll hts hs]
      simp only [List.reverse_cons, List.append_assoc, List.cons_append, List.nil_append, List.length_append]
      congr 2
      omega
    | true =>
      rw [renderedAll, if_pos rfl, List.append_assoc, List.append_assoc, List.cons_append, List.nil_append,
        build_scan_blank hnil _ _ _ (by decide), endWord_nil, build_rendered ht hstop, build_renderedAll hts hs]
      simp only [List.reverse_cons, List.append_assoc, List.cons_append, List.nil_append, List.length_append,
        List.length_cons]
      congr 2
      omega

end

theorem parse_text {t : Tree} (h : t.WellFormed) : parse t.text = .ok t := by
  have hstop : Stops [] := fun c hc => by cases hc
  have hr := build_rendered h hstop [] [] 0
  rw [List.append_nil] at hr
  rw [parse, Lexeme.scan, toList_text, hr]
  rfl

/-- **Parsing undoes printing**: the text of a tree of proper atoms parses to that tree, so two such trees are equal
exactly if their texts are. -/
theorem parse_text_and_text_inj (t : Tree) (ht : t.WellFormed) :
    parse t.text = .ok t ∧ ∀ u : Tree, u.WellFormed → (t.text = u.text ↔ t = u) := by
  refine ⟨parse_text ht, fun u hu => ⟨fun h => ?_, fun h => by rw [h]⟩⟩
  have hp := parse_text ht
  rw [h, parse_text hu] at hp
  exact (Except.ok.inj hp).symm

/-- Empty lists, lists of one item and parentheses that touch. -/
theorem parse_text_and_text_inj_nested :
    let t := Tree.list [.list [.list []], .atom "a.b", .list [.atom "c"]]
    t.WellFormed ∧ t.text = "((()) a.b (c))" ∧ parse t.text = .ok t ∧
      (t.text = (Tree.list [.atom "c"]).text ↔ t = .list [.atom "c"]) := by
  intro t
  have ht : t.WellFormed := by decide
  have hu : (Tree.list [.atom "c"]).WellFormed := by decide
  refine ⟨ht, ?_, (parse_text_and_text_inj t ht).1, (parse_text_and_text_inj t ht).2 _ hu⟩
  rw [← String.toList_inj, toList_text]
  rfl

end Tree
end PushMachine
