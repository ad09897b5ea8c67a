import PushMachine.Proofs.Ending
import PushMachine.Proofs.Lockstep
import PushMachine.Proofs.Parsing
import PushMachine.Proofs.Spelling
import PushMachine.Random.Twister
/-!
# Case does not matter

`Text.foldCase` writes the letters A to Z small and leaves everything else as it is; texts that differ only in the case
of those letters are those with one folding.  Folding a text does not change what its tokens mean (`meaning?_foldCase`)
and commutes with parsing (`parse_foldCase`).  So programs that differ only in case run alike, up to the first
comparison of trees (`run_foldCase`).
-/
namespace PushMachine

/-- The text with small letters for the letters A to Z. -/
def Text.foldCase (s : String) : String := String.ofList (s.toList.map Char.toLower)

namespace Text

@[simp] theorem toList_foldCase (s : String) : (foldCase s).toList = s.toList.map Char.toLower := String.toList_ofList

/-! ## Characters -/

/-- What does not tell any of the letters A to Z from its small letter does not see folding. -/
theorem apply_toLower {α : Type} {g : Char → α}
    (h : ∀ n < 26, g (Char.ofNat (0x41 + n)).toLower = g (Char.ofNat (0x41 + n))) (c : Char) : g c.toLower = g c := by
  by_cases hc : 0x41 ≤ c.toNat ∧ c.toNat ≤ 0x5A
  · have hn := h (c.toNat - 0x41) (by omega)
    rwa [Nat.add_sub_cancel' hc.1, Char.ofNat_toNat] at hn
  · have hself : c.toLower = c := by
      refine dif_neg fun hletter => hc ?_
      exact ⟨UInt32.le_iff_toNat_le.1 hletter.1, UInt32.le_iff_toNat_le.1 hletter.2⟩
    rw [hself]

theorem isCased_toLower : ∀ c : Char, isCased c.toLower = isCased c := apply_toLower (by decide)

/-- No letter is skipped, so none has to be looked up in the table. -/
theorem ignorableRanges_avoid : ∀ r ∈ ignorableRanges, r.2 < 0x41 ∨ 0x5A < r.1 ∧ r.2 < 0x61 ∨ 0x7A < r.1 := by
  decide +kernel

theorem isIgnorable_toLower : ∀ c : Char, isIgnorable c.toLower = isIgnorable c := by
  have hnone : ∀ c : Char, 0x41 ≤ c.toNat ∧ c.toNat ≤ 0x5A ∨ 0x61 ≤ c.toNat ∧ c.toNat ≤ 0x7A → isIgnorable c = false := by
    intro c hc
    refine inRanges_eq_false_iff.2 fun r hr => ?_
    have := ignorableRanges_avoid r hr
    omega
  refine apply_toLower fun n hn => ?_
  rw [hnone _ (by revert n; decide), hnone _ (by revert n; decide)]

theorem lowerChar_toLower : ∀ c : Char, lowerChar c.toLower = lowerChar c := apply_toLower (by decide)

theorem isDigit_toLower : ∀ c : Char, c.toLower.isDigit = c.isDigit := apply_toLower (by decide)

theorem isBlank_toLower : ∀ c : Char, isBlank c.toLower = isBlank c := apply_toLower (by decide)

theorem toLower_toLower : ∀ c : Char, c.toLower.toLower = c.toLower := apply_toLower (by decide)

theorem toLower_eq_iff {d : Char}
    (h : ∀ n < 26, (Char.ofNat (0x41 + n)).toLower = d ↔ Char.ofNat (0x41 + n) = d) (c : Char) :
    c.toLower = d ↔ c = d :=
  iff_of_eq (apply_toLower (g := (· = d)) (fun n hn => propext (h n hn)) c)

theorem toLower_of_isDigit {c : Char} (h : c.isDigit = true) : c.toLower = c := by
  simp only [Char.isDigit, Bool.and_eq_true, decide_eq_true_eq] at h
  have hle : c.toNat ≤ 57 := UInt32.le_iff_toNat_le.1 h.2
  refine dif_neg fun hletter => ?_
  have hge : 65 ≤ c.toNat := UInt32.le_iff_toNat_le.1 hletter.1
  omega

theorem map_toLower_of_digits {cs : List Char} (h : ∀ c ∈ cs, c.isDigit = true) : cs.map Char.toLower = cs := by
  rw [List.map_congr_left fun c hc => toLower_of_isDigit (h c hc)]
  exact List.map_id cs

/-! ## Lower case -/

theorem endsWord_map (before after : List Char) :
    endsWord (before.map Char.toLower) (after.map Char.toLower) = endsWord before after := by
  have hskip : isIgnorable ∘ Char.toLower = isIgnorable := funext isIgnorable_toLower
  simp only [endsWord, List.dropWhile_map, hskip]
  cases before.dropWhile isIgnorable with
  | nil => rfl
  | cons c _ => cases after.dropWhile isIgnorable <;> simp [isCased_toLower]

theorem lowerFrom_map : ∀ before cs : List Char,
    lowerFrom (before.map Char.toLower) (cs.map Char.toLower) = lowerFrom before cs
  | _,      []      => rfl
  | before, c :: cs => by
    have hsigma : c.toLower = capitalSigma ↔ c = capitalSigma := toLower_eq_iff (by decide) c
    have ih := lowerFrom_map (c :: before) cs
    rw [List.map_cons] at ih
    rw [List.map_cons, lowerFrom, lowerFrom, ih, endsWord_map, lowerChar_toLower]
    simp only [hsigma]

theorem lowerChars_map (cs : List Char) : lowerChars (cs.map Char.toLower) = lowerChars cs := lowerFrom_map [] cs

theorem lower_foldCase (s : String) : lower (foldCase s) = lower s := by
  rw [lower, lower, toList_foldCase, lowerChars_map]

end Text

/-! ## Numbers -/

namespace Number

open Text

theorem cutSign_map (cs : List Char) :
    cutSign (cs.map Char.toLower) = ((cutSign cs).1, (cutSign cs).2.map Char.toLower) := by
  cases cs with
  | nil => rfl
  | cons c cs =>
    by_cases hm : c = '-'
    · subst hm; rfl
    · by_cases hp : c = '+'
      · subst hp; rfl
      · have hm' : c.toLower ≠ '-' := mt (toLower_eq_iff (by decide) c).1 hm
        have hp' : c.toLower ≠ '+' := mt (toLower_eq_iff (by decide) c).1 hp
        simp [cutSign, hm, hp, hm', hp']

theorem allDigits_map (cs : List Char) : allDigits (cs.map Char.toLower) = allDigits cs := by
  have hdigit : Char.isDigit ∘ Char.toLower = Char.isDigit := funext isDigit_toLower
  simp [allDigits, hdigit]

theorem map_toLower_of_allDigits {cs : List Char} (h : allDigits cs = true) : cs.map Char.toLower = cs :=
  map_toLower_of_digits (by simp [allDigits] at h; exact h.2)

theorem readInteger_map (cs : List Char) : readInteger (cs.map Char.toLower) = readInteger cs := by
  simp only [readInteger, cutSign_map, allDigits_map, List.length_map]
  by_cases h : allDigits (cutSign cs).2 = true
  · rw [map_toLower_of_allDigits h]
  · simp [h]

theorem readExponent?_map (cs : List Char) : readExponent? (cs.map Char.toLower) = readExponent? cs := by
  cases cs with
  | nil => rfl
  | cons c cs =>
    have hmark : (c.toLower = 'e' || c.toLower = 'E') = (c = 'e' || c = 'E') :=
      apply_toLower (g := fun c => decide (c = 'e') || decide (c = 'E')) (by decide) c
    simp only [List.map_cons, readExponent?, cutSign_map, allDigits_map, hmark]
    by_cases h : allDigits (cutSign cs).2 = true
    · rw [map_toLower_of_allDigits h]
    · simp [h]

theorem takeWhile_isDigit_map (cs : List Char) :
    (cs.map Char.toLower).takeWhile Char.isDigit = cs.takeWhile Char.isDigit := by
  have hdigit : Char.isDigit ∘ Char.toLower = Char.isDigit := funext isDigit_toLower
  rw [List.takeWhile_map, hdigit]
  exact map_toLower_of_digits fun c hc => List.all_eq_true.1 List.all_takeWhile c hc

theorem dropWhile_isDigit_map (cs : List Char) :
    (cs.map Char.toLower).dropWhile Char.isDigit = (cs.dropWhile Char.isDigit).map Char.toLower := by
  have hdigit : Char.isDigit ∘ Char.toLower = Char.isDigit := funext isDigit_toLower
  rw [List.dropWhile_map, hdigit]

theorem cutPoint_map (cs : List Char) :
    cutPoint (cs.map Char.toLower) = ((cutPoint cs).1, (cutPoint cs).2.1, (cutPoint cs).2.2.map Char.toLower) := by
  simp only [cutPoint, takeWhile_isDigit_map, dropWhile_isDigit_map]
  cases cs.dropWhile Char.isDigit with
  | nil => rfl
  | cons c rest =>
    by_cases hc : c = '.'
    · subst hc
      simp [takeWhile_isDigit_map, dropWhile_isDigit_map]
    · have hc' : c.toLower ≠ '.' := mt (toLower_eq_iff (by decide) c).1 hc
      simp [hc, hc']

theorem readDecimal?_map (negative : Bool) (cs : List Char) :
    readDecimal? negative (cs.map Char.toLower) = readDecimal? negative cs := by
  simp only [readDecimal?, cutPoint_map, readExponent?_map]

theorem readWord?_map (negative : Bool) (cs : List Char) :
    readWord? negative (cs.map Char.toLower) = readWord? negative cs := by
  have htwice : Char.toLower ∘ Char.toLower = Char.toLower := funext toLower_toLower
  simp only [readWord?, List.map_map, htwice]

theorem readFloat?_map (cs : List Char) : readFloat? (cs.map Char.toLower) = readFloat? cs := by
  simp only [readFloat?, cutSign_map, readDecimal?_map, readWord?_map]

end Number

/-! ## Tokens -/

namespace Token

open Text

theorem isOddWord_map (cs : List Char) : isOddWord (cs.map Char.toLower) = isOddWord cs := by
  have hodd : ∀ c : Char, isOddI c.toLower = isOddI c := apply_toLower (by decide)
  have hplain : (fun c => if isOddI c then 'i' else c) ∘ Char.toLower
      = Char.toLower ∘ fun c => if isOddI c then 'i' else c := by
    funext c
    simp only [Function.comp_apply, hodd]
    split <;> rfl
  rw [isOddWord, isOddWord, Number.cutSign_map, List.map_map, hplain, ← List.map_map, Number.readWord?_map,
    List.any_map, show isOddI ∘ Char.toLower = isOddI from funext hodd]

theorem boolean?_foldCase (s : String) : boolean? (foldCase s) = boolean? s := by
  rw [boolean?, boolean?, lower_foldCase]

theorem cutAtPoint_map (cs : List Char) :
    cutAtPoint (cs.map Char.toLower)
      = (cutAtPoint cs).map fun halves => (halves.1.map Char.toLower, halves.2.map Char.toLower) := by
  have hpoint : (· != '.') ∘ Char.toLower = (· != '.') :=
    funext (apply_toLower (g := (· != '.')) (by decide))
  rw [cutAtPoint, cutAtPoint, List.dropWhile_map, List.takeWhile_map, hpoint]
  cases cs.dropWhile (· != '.') <;> rfl

theorem symbol_foldCase (s : String) : symbol (foldCase s) = symbol s := by
  simp only [symbol, toList_foldCase, cutAtPoint_map, lower_foldCase]
  cases cutAtPoint s.toList with
  | none => rfl
  | some halves => simp [lowerChars_map]

/-- **Folding does not change what a token means.** -/
theorem meaning?_foldCase (s : String) : meaning? (foldCase s) = meaning? s := by
  have hinteger : integer? (foldCase s) = integer? s := by
    rw [integer?, integer?, toList_foldCase, Number.readInteger_map]
  -- a fault names the text as it is written, so only what is read is the same
  simp only [meaning?, classify, hinteger, float?, toList_foldCase, isOddWord_map, Number.readFloat?_map,
    boolean?_foldCase, symbol_foldCase]
  cases integer? s with
  | error f => rfl
  | ok n =>
    cases n with
    | some n => rfl
    | none => by_cases h : isOddWord s.toList = true <;> simp [h, Except.toOption]

theorem meaning?_of_foldCase_eq (a b : String) (h : foldCase a = foldCase b) : meaning? a = meaning? b := by
  rw [← meaning?_foldCase a, h, meaning?_foldCase]

end Token

/-! ## Texts -/

open Text

def Lexeme.foldCase (l : Lexeme) : Lexeme := ⟨Text.foldCase l.text, l.offset⟩

theorem Lexeme.ofWord_map (offset : Nat) (word : List Char) :
    ofWord offset (word.map Char.toLower) = (ofWord offset word).map Lexeme.foldCase := by
  cases word with
  | nil => rfl
  | cons c word => simp [ofWord, Lexeme.foldCase, Text.foldCase]

theorem Lexeme.scanFrom_map : ∀ (offset : Nat) (word cs : List Char),
    scanFrom offset (word.map Char.toLower) (cs.map Char.toLower) = (scanFrom offset word cs).map Lexeme.foldCase
  | offset, word, []      => ofWord_map offset word
  | offset, word, c :: cs => by
    have hparen : isParenthesis c.toLower = isParenthesis c := apply_toLower (by decide) c
    have hnext := scanFrom_map (offset + 1) [] cs
    have hword := scanFrom_map (offset + 1) (c :: word) cs
    have hsingle : Text.foldCase (String.singleton c) = String.singleton c.toLower := by
      rw [Text.foldCase, String.toList_singleton, List.map_singleton, String.singleton_eq_ofList]
    rw [List.map_nil] at hnext
    rw [List.map_cons] at hword
    rw [List.map_cons, scanFrom, scanFrom, isBlank_toLower, hparen, ofWord_map, hnext, hword]
    split
    · rw [List.map_append]
    · split
      · rw [List.map_append, List.map_cons, Lexeme.foldCase, hsingle]
      · rfl

theorem Lexeme.scan_foldCase (text : String) : scan (Text.foldCase text) = (scan text).map Lexeme.foldCase := by
  rw [scan, scan, toList_foldCase]
  exact scanFrom_map 0 [] text.toList

namespace Tree

theorem ofItems_mapTokens (f : String → String) (ts : List Tree) :
    (ofItems ts).mapTokens f = ofItems (ts.map (mapTokens f)) := by
  rcases ts with _ | ⟨t, _ | ⟨u, ts⟩⟩
  · rfl
  · rfl
  · exact mapTokens_list f _

def Frame.foldCase (frame : Frame) : Frame := ⟨frame.opened, frame.items.map (mapTokens Text.foldCase)⟩

theorem foldCase_eq_iff {s : String} {c : Char}
    (hc : ∀ n < 26, (Char.ofNat (0x41 + n)).toLower = c ↔ Char.ofNat (0x41 + n) = c) :
    foldCase s = String.singleton c ↔ s = String.singleton c := by
  rw [← String.toList_inj, ← String.toList_inj, toList_foldCase, String.toList_singleton, List.map_eq_singleton_iff]
  constructor
  · rintro ⟨d, hd, hlow⟩
    rw [hd, (toLower_eq_iff hc d).1 hlow]
  · intro h
    exact ⟨c, h, (toLower_eq_iff hc c).2 rfl⟩

theorem build_foldCase : ∀ (frames : List Frame) (done : List Tree) (ls : List Lexeme),
    build (frames.map Frame.foldCase) (done.map (mapTokens Text.foldCase)) (ls.map Lexeme.foldCase)
      = (build frames done ls).map (mapTokens Text.foldCase)
  | [], done, [] => by
    simp only [List.map_nil, build, Except.map, ofItems_mapTokens, List.map_reverse]
  | frame :: frames, done, [] => rfl
  | frames, done, l :: ls => by
    have hopen : Text.foldCase l.text = "(" ↔ l.text = "(" := foldCase_eq_iff (c := '(') (by decide)
    have hclose : Text.foldCase l.text = ")" ↔ l.text = ")" := foldCase_eq_iff (c := ')') (by decide)
    rw [List.map_cons, build_cons, build_cons]
    simp only [Lexeme.foldCase, hopen, hclose]
    split
    · exact build_foldCase (⟨l.offset, done⟩ :: frames) [] ls
    · split
      · cases frames with
        | nil => rfl
        | cons frame frames =>
          have ih := build_foldCase frames (.list done.reverse :: frame.items) ls
          rw [List.map_cons, mapTokens_list, List.map_reverse] at ih
          exact ih
      · exact build_foldCase frames (.atom l.text :: done) ls

/-- **Folding commutes with parsing.** -/
theorem parse_foldCase (text : String) :
    parse (Text.foldCase text) = (parse text).map (mapTokens Text.foldCase) := by
  rw [parse, parse, Lexeme.scan_foldCase]
  exact build_foldCase [] [] (Lexeme.scan text)

theorem like_of_parse {p q : String} (h : Text.foldCase p = Text.foldCase q) {t : Tree} (ht : parse p = .ok t) :
    ∃ u, parse q = .ok u ∧ t.Like Text.foldCase u := by
  have hparse := parse_foldCase q
  rw [← h, parse_foldCase p, ht] at hparse
  cases hu : parse q with
  | error e => rw [hu] at hparse; cases hparse
  | ok u =>
    rw [hu] at hparse
    exact ⟨u, rfl, Except.ok.inj hparse⟩

end Tree

/-! ## Runs -/

namespace Machine

variable {ρ : Type} [RandomSource ρ]

/-- **The same machine but for the case of letters in its trees.** -/
structure SameButCase (m m' : Machine ρ) : Prop where
  steps    : m'.steps = m.steps
  integer  : m'.integer = m.integer
  float    : m'.float = m.float
  boolean  : m'.boolean = m.boolean
  name     : m'.name = m.name
  quoting  : m'.quoting = m.quoting
  /-- The names that were made, and the source of random values. -/
  supply   : m'.supply = m.supply
  /-- The same names are bound, in the same order, to trees that are the same once folded. -/
  names    : m'.bindings.names = m.bindings.names
  bindings : m'.bindings.fold foldCase = m.bindings.fold foldCase
  exec     : m'.exec.map (Tree.mapTokens foldCase) = m.exec.map (Tree.mapTokens foldCase)
  code     : m'.code.map (Tree.mapTokens foldCase) = m.code.map (Tree.mapTokens foldCase)

omit [RandomSource ρ] in
theorem Alike.sameButCase {m m' : Machine ρ} (h : m.Alike foldCase m') (hs : m.steps = m'.steps) :
    m.SameButCase m' where
  steps    := hs.symm
  integer  := h.integer.symm
  float    := (h.literal (k := .float) rfl).symm
  boolean  := h.boolean.symm
  name     := h.name.symm
  quoting  := h.quoting.symm
  supply   := h.supply.symm
  names    := h.names.symm
  bindings := h.bindings.symm
  exec     := h.exec.symm
  code     := h.code.symm

/-- **Case matters to no program that does not compare trees.**  If a run ends without a fault and executes none of
`exec.=`, `code.=` and `code.member`, the run of a text that differs only in the case of letters ends with the same
status, message and number of steps, at the same machine but for the case of letters in its trees. -/
theorem run_foldCase (o : Options) (m m₁ : Machine ρ) (p q : String) (e : Ending) (hpq : foldCase p = foldCase q)
    (hrun : m.run o p = (.ok (.ok e), m₁))
    (hc : ∀ s ∈ m.runPops o p, ∀ i, s.NextRuns o i → i.comparesTrees = false) :
    ∃ e' m₂, m.run o q = (.ok (.ok e'), m₂) ∧ e'.status = e.status ∧ e'.message? = e.message? ∧ e'.steps = e.steps ∧
      m₁.SameButCase m₂ := by
  cases ht : Tree.parse p with
  | error err => rw [run_of_parse_error ht] at hrun; cases hrun
  | ok t =>
    obtain ⟨u, hu, htu⟩ := Tree.like_of_parse hpq ht
    simp only [runPops, ht] at hc
    have hends := runTree_alike Token.meaning?_of_foldCase_eq o m htu hc
    simp only [run, ht] at hrun
    obtain ⟨hr, hm⟩ := Prod.mk.inj hrun
    rw [show m.runTree o t = (.ok e, m₁) from Prod.ext (Except.ok.inj hr) hm] at hends
    generalize hq : m.runTree o u = result at hends
    cases hends with
    | @ended _ e' _ m₂ hstatus hmessage hcount halike hsteps =>
      refine ⟨e', m₂, ?_, hstatus.symm, hmessage.symm, hcount.symm, halike.sameButCase hsteps⟩
      simp only [run, hu, hq]

/-- A program in capitals and in small letters, where only `boolean.define` is allowed: both bind a name and execute it,
and both abort for the same stack. -/
theorem run_foldCase_capitals :
    let m := initial (Twister.ofSeed 0)
    let o : Options := { instructions := ["boolean.define"] }
    let p := "Key TRUE (BOOLEAN.DEFINE kEY) Foo.Bar"
    let q := "key true (boolean.define key) foo.bar"
    ∃ e m₁ e' m₂, m.run o p = (.ok (.ok e), m₁) ∧ m.run o q = (.ok (.ok e'), m₂) ∧
      e.status = "unknown_stack" ∧ e'.status = e.status ∧ e'.message? = e.message? ∧ e'.steps = e.steps ∧
      m₁.SameButCase m₂ := by
  intro m o p q
  have hend : (m.run o p).1 = .ok (.ok (.aborted (.unknownStack "foo" "Foo.Bar") 8)) := by decide +kernel
  have hallowed : ∀ i ∈ Instruction.all, o.allows i = true → i.comparesTrees = false := by decide +kernel
  have hc : ∀ s ∈ m.runPops o p, ∀ i, s.NextRuns o i → i.comparesTrees = false := by
    rintro s - i ⟨token, stack, operation, rest, -, hr⟩
    obtain ⟨hi, -, -, ha⟩ := Options.resolve_eq_ok hr
    exact hallowed i hi ha
  obtain ⟨e', m₂, hq, hsame⟩ :=
    run_foldCase o m _ p q _ (by decide +kernel) (Prod.ext hend rfl) hc
  exact ⟨_, _, e', m₂, Prod.ext hend rfl, hq, rfl, hsame⟩

end Machine
end PushMachine
