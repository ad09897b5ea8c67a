import PushMachine.Options.Configuration
import PushMachine.Options.View
import PushMachine.Proofs.Referring
/-!
# The lines of a configuration

A line is silent if it holds blanks and a comment only; any other carries a word and, after blanks, a setting, which
may be missing (`silent_or_carries`).  `IllFormed` lists what can be wrong with a line, with the wording, and looks at
the line alone; it is exactly what the reader refuses (`readLine_eq_error_iff`).  A line that is read adds what its
setting means to the field that its word is the key of (`added?_bind`).
-/
namespace PushMachine

/-! ## Trimming -/

namespace Text

variable {p : Char → Bool} {before body after : List Char}

theorem dropWhile_eq_self {cs : List Char} (h : ∀ c ∈ cs.head?, p c = false) : cs.dropWhile p = cs := by
  cases cs with
  | nil => rfl
  | cons c cs => rw [List.dropWhile_cons, h c rfl]; rfl

theorem trimBoth_append (hb : ∀ c ∈ before, p c = true) (ha : ∀ c ∈ after, p c = true)
    (hhead : ∀ c ∈ body.head?, p c = false) (hlast : ∀ c ∈ body.getLast?, p c = false) :
    trimBoth p (before ++ (body ++ after)) = body := by
  rw [trimBoth, List.dropWhile_append_of_pos hb]
  cases body with
  | nil =>
    rw [List.nil_append, List.dropWhile_eq_nil_iff.2 ha]
    rfl
  | cons c cs =>
    have hback : ∀ d ∈ after.reverse, p d = true := fun d hd => ha d (List.mem_reverse.1 hd)
    have hfront : ∀ d ∈ (c :: cs ++ after).head?, p d = false := hhead
    rw [dropWhile_eq_self hfront, List.reverse_append, List.dropWhile_append_of_pos hback,
      dropWhile_eq_self (by rwa [List.head?_reverse]), List.reverse_reverse]

/-- The longest part in front with a property, and the rest. -/
theorem exists_cut (p : Char → Bool) (cs : List Char) : ∃ front rest, cs = front ++ rest ∧
    (∀ c ∈ front, p c = true) ∧ ∀ c ∈ rest.head?, p c = false := by
  refine ⟨cs.takeWhile p, cs.dropWhile p, List.takeWhile_append_dropWhile.symm, fun c hc => List.mem_takeWhile_imp hc,
    fun c hc => ?_⟩
  have hstop := List.head?_dropWhile_not p cs
  rw [Option.mem_def.1 hc] at hstop
  simpa using hstop

theorem exists_trim (p : Char → Bool) (cs : List Char) : ∃ before body after, cs = before ++ (body ++ after) ∧
    (∀ c ∈ before, p c = true) ∧ (∀ c ∈ after, p c = true) ∧ (∀ c ∈ body.head?, p c = false) ∧
    ∀ c ∈ body.getLast?, p c = false := by
  obtain ⟨before, rest, rfl, hb, hhead⟩ := exists_cut p cs
  obtain ⟨back, body, hrest, ha, hlast⟩ := exists_cut p rest.reverse
  obtain rfl : rest = body.reverse ++ back.reverse := by rw [← List.reverse_append, ← hrest, List.reverse_reverse]
  refine ⟨before, body.reverse, back.reverse, rfl, hb, fun c hc => ha c (List.mem_reverse.1 hc), fun c hc => ?_, ?_⟩
  · exact hhead c (by rw [List.head?_append, Option.mem_def.1 hc]; rfl)
  · rwa [List.getLast?_reverse]

end Text

namespace Configuration

/-! ## How a line is put together -/

def Blanks (cs : List Char) : Prop := ∀ c ∈ cs, Text.isBlank c = true

/-- Nothing, or a number sign and anything after it. -/
def IsComment (cs : List Char) : Prop := cs = [] ∨ ∃ text, cs = '#' :: text

def IsWord (cs : List Char) : Prop := cs ≠ [] ∧ ∀ c ∈ cs, Text.isBlank c = false ∧ c ≠ '#'

/-- No number sign, and no blank at either end. -/
def IsSetting (cs : List Char) : Prop :=
  '#' ∉ cs ∧ (∀ c ∈ cs.head?, Text.isBlank c = false) ∧ ∀ c ∈ cs.getLast?, Text.isBlank c = false

/-- **Blanks and a comment.** -/
def Silent (line : List Char) : Prop :=
  ∃ before comment, line = before ++ comment ∧ Blanks before ∧ IsComment comment

/-- **A word and a setting**, or a word and nothing, among blanks and before a comment. -/
def Carries (line word setting : List Char) : Prop :=
  ∃ before gap after comment, line = before ++ (word ++ (gap ++ (setting ++ (after ++ comment)))) ∧
    Blanks before ∧ Blanks gap ∧ Blanks after ∧ IsComment comment ∧ IsWord word ∧ IsSetting setting ∧
    (gap = [] ↔ setting = [])

/-- The lower case that keys, types and instructions are compared in. -/
def lowered (cs : List Char) : String := String.ofList (Text.lowerChars cs)

/-- **The line has this setting for the key.** -/
def Sets (line : List Char) (key : String) (setting : List Char) : Prop :=
  setting ≠ [] ∧ ∃ word, Carries line word setting ∧ lowered word = key

theorem not_numberSign_of_blanks {cs : List Char} (h : Blanks cs) : ∀ c ∈ cs, (c != '#') = true := by
  intro c hc
  refine bne_iff_ne.2 ?_
  rintro rfl
  exact absurd (h '#' hc) (by decide)

theorem takeWhile_comment {comment : List Char} (h : IsComment comment) : comment.takeWhile (· != '#') = [] := by
  rcases h with rfl | ⟨text, rfl⟩ <;> rfl

theorem content_eq {before body after comment : List Char} (hb : Blanks before) (ha : Blanks after)
    (hc : IsComment comment) (h : IsSetting body) : content (before ++ (body ++ (after ++ comment))) = body := by
  have hbody : ∀ c ∈ body, (c != '#') = true := fun c hc => bne_iff_ne.2 fun he => h.1 (he ▸ hc)
  rw [content, List.takeWhile_append_of_pos (not_numberSign_of_blanks hb), List.takeWhile_append_of_pos hbody,
    List.takeWhile_append_of_pos (not_numberSign_of_blanks ha), takeWhile_comment hc, List.append_nil]
  exact Text.trimBoth_append hb ha h.2.1 h.2.2

theorem exists_layout (line : List Char) : ∃ before body after comment,
    line = before ++ (body ++ (after ++ comment)) ∧ Blanks before ∧ Blanks after ∧ IsComment comment ∧
      IsSetting body := by
  obtain ⟨text, comment, rfl, htext, hhash⟩ := Text.exists_cut (· != '#') line
  obtain ⟨before, body, after, rfl, hb, ha, hhead, hlast⟩ := Text.exists_trim Text.isBlank text
  refine ⟨before, body, after, comment, by simp only [List.append_assoc], hb, ha, ?_, fun hm => ?_, hhead, hlast⟩
  · cases comment with
    | nil => exact .inl rfl
    | cons c comment => exact .inr ⟨comment, by rw [bne_eq_false_iff_eq.1 (hhash c rfl)]⟩
  · exact absurd (htext '#' (by simp [hm])) (by decide)

theorem content_of_silent {line : List Char} (h : Silent line) : content line = [] := by
  obtain ⟨before, comment, rfl, hb, hc⟩ := h
  exact @content_eq before [] [] comment hb (List.forall_mem_nil _) hc
    ⟨List.not_mem_nil, by simp, by simp⟩

theorem isSetting_of_carries {word gap setting : List Char} (hw : IsWord word) (hg : Blanks gap)
    (hs : IsSetting setting) (hgap : gap = [] ↔ setting = []) : IsSetting (word ++ (gap ++ setting)) := by
  obtain ⟨hne, hword⟩ := hw
  refine ⟨?_, ?_, ?_⟩
  · simp only [List.mem_append, not_or]
    exact ⟨fun hm => (hword _ hm).2 rfl, fun hm => absurd (hg _ hm) (by decide), hs.1⟩
  · cases word with
    | nil => exact absurd rfl hne
    | cons c word => simpa using (hword c List.mem_cons_self).1
  · by_cases hnil : setting = []
    · rw [hgap.2 hnil, hnil, List.append_nil, List.append_nil]
      exact fun c hc => (hword c (List.mem_of_getLast? hc)).1
    · rw [List.getLast?_append, List.getLast?_append, List.getLast?_eq_some_getLast hnil]
      simpa [List.getLast?_eq_some_getLast hnil] using hs.2.2

theorem cutWord_eq {word gap setting : List Char} (hw : IsWord word) (hg : Blanks gap) (hs : IsSetting setting)
    (hgap : gap = [] ↔ setting = []) : Text.cutWord (word ++ (gap ++ setting)) = (word, setting) := by
  have hword : ∀ c ∈ word, (!Text.isBlank c) = true := fun c hc => by rw [(hw.2 c hc).1]; rfl
  have hstop : ∀ c ∈ (gap ++ setting).head?, (!Text.isBlank c) = false := by
    cases gap with
    | nil => rw [hgap.1 rfl]; simp
    | cons c gap => simpa using hg c List.mem_cons_self
  have htake : (gap ++ setting).takeWhile (!Text.isBlank ·) = [] := by
    cases hcs : gap ++ setting with
    | nil => rfl
    | cons c cs =>
      rw [hcs] at hstop
      rw [List.takeWhile_cons, hstop c rfl]
      rfl
  rw [Text.cutWord, List.takeWhile_append_of_pos hword, List.dropWhile_append_of_pos hword, htake,
    Text.dropWhile_eq_self hstop, List.dropWhile_append_of_pos hg, Text.dropWhile_eq_self hs.2.1, List.append_nil]

theorem content_of_carries {line word setting : List Char} (h : Carries line word setting) :
    content line ≠ [] ∧ Text.cutWord (content line) = (word, setting) := by
  obtain ⟨before, gap, after, comment, rfl, hb, hg, ha, hc, hw, hs, hgap⟩ := h
  have hbody := content_eq hb ha hc (isSetting_of_carries hw hg hs hgap)
  simp only [List.append_assoc] at hbody
  rw [hbody]
  exact ⟨List.append_ne_nil_of_left_ne_nil hw.1 _, cutWord_eq hw hg hs hgap⟩

/-- **A line carries one word and one setting only.** -/
theorem Carries.unique {line word word' setting setting' : List Char} (h : Carries line word setting)
    (h' : Carries line word' setting') : word = word' ∧ setting = setting' :=
  Prod.mk.inj ((content_of_carries h).2.symm.trans (content_of_carries h').2)

theorem Sets.unique {line setting setting' : List Char} {key key' : String} (h : Sets line key setting)
    (h' : Sets line key' setting') : key = key' ∧ setting = setting' := by
  obtain ⟨-, word, hs, rfl⟩ := h
  obtain ⟨-, word', hs', rfl⟩ := h'
  obtain ⟨rfl, rfl⟩ := hs.unique hs'
  exact ⟨rfl, rfl⟩

theorem exists_word {body : List Char} (h : IsSetting body) (hne : body ≠ []) : ∃ word gap setting,
    body = word ++ (gap ++ setting) ∧ IsWord word ∧ Blanks gap ∧ IsSetting setting ∧ (gap = [] ↔ setting = []) := by
  obtain ⟨hhash, hhead, hlast⟩ := h
  obtain ⟨word, rest, rfl, hword, hstop⟩ := Text.exists_cut (!Text.isBlank ·) body
  obtain ⟨gap, setting, rfl, hg, hs⟩ := Text.exists_cut Text.isBlank rest
  have hnonblank : ∀ c ∈ word, Text.isBlank c = false := fun c hc => by simpa using hword c hc
  simp only [List.mem_append, not_or] at hhash
  refine ⟨word, gap, setting, rfl, ⟨?_, fun c hc => ⟨hnonblank c hc, fun he => hhash.1 (he ▸ hc)⟩⟩, hg,
    ⟨hhash.2.2, hs, ?_⟩, ?_⟩
  · rintro rfl
    rw [List.nil_append] at hhead hne
    cases hrest : gap ++ setting with
    | nil => exact hne hrest
    | cons c rest =>
      rw [hrest] at hhead hstop
      have := hstop c rfl
      rw [hhead c rfl] at this
      cases this
  · intro c hc
    refine hlast c ?_
    rw [List.getLast?_append, List.getLast?_append, Option.mem_def.1 hc]
    rfl
  · constructor
    · rintro rfl
      cases setting with
      | nil => rfl
      | cons c setting =>
        have := hstop c rfl
        rw [hs c rfl] at this
        cases this
    · rintro rfl
      -- with nothing after them, the blanks would end what does not end in a blank
      by_contra hne
      have hend := hlast (gap.getLast hne) (by simp [List.getLast?_append, List.getLast?_eq_some_getLast hne])
      rw [hg _ (List.getLast_mem hne)] at hend
      cases hend

/-- **A line that is not silent carries a word.** -/
theorem silent_or_carries (line : List Char) : Silent line ∨ ∃ word setting, Carries line word setting := by
  obtain ⟨before, body, after, comment, rfl, hb, ha, hc, hbody⟩ := exists_layout line
  by_cases hne : body = []
  · refine .inl ⟨before ++ after, comment, ?_, List.forall_mem_append.2 ⟨hb, ha⟩, hc⟩
    rw [hne, List.nil_append, List.append_assoc]
  · obtain ⟨word, gap, setting, rfl, hw, hg, hs, hgap⟩ := exists_word hbody hne
    exact .inr ⟨word, setting, before, gap, after, comment, by simp only [List.append_assoc], hb, hg, ha, hc, hw, hs,
      hgap⟩

/-- The setting of a line for a key, if it has one. -/
def setting? (key : String) (line : List Char) : Option (List Char) :=
  match content line with
  | []   => none
  | text =>
    let (word, setting) := Text.cutWord text
    if lowered word = key ∧ setting ≠ [] then some setting else none

theorem setting?_of_silent {line : List Char} (h : Silent line) (key : String) : setting? key line = none := by
  rw [setting?, content_of_silent h]

theorem setting?_of_carries {line word setting : List Char} (h : Carries line word setting) (key : String) :
    setting? key line = if lowered word = key ∧ setting ≠ [] then some setting else none := by
  obtain ⟨hne, hcut⟩ := content_of_carries h
  unfold setting?
  split
  · rename_i hnil
    exact absurd hnil hne
  · rw [hcut]

theorem setting?_eq_some_iff {line setting : List Char} {key : String} :
    setting? key line = some setting ↔ Sets line key setting := by
  constructor
  · intro h
    rcases silent_or_carries line with hs | ⟨word, setting', hs⟩
    · rw [setting?_of_silent hs] at h
      cases h
    · rw [setting?_of_carries hs] at h
      split at h
      · rename_i hc
        cases h
        exact ⟨hc.2, word, hs, hc.1⟩
      · cases h
  · rintro ⟨hne, word, hs, hkey⟩
    rw [setting?_of_carries hs, if_pos ⟨hkey, hne⟩]

end Configuration

/-! ## What settings mean -/

namespace Field

def key : Field → String
  | .flag f       => f.key
  | .integer f    => f.key
  | .float f      => f.key
  | .types        => "type"
  | .instructions => "instruction"

theorem mem_all (f : Field) : f ∈ all := by
  cases f with
  | flag f       => cases f <;> simp [all]
  | integer f    => cases f <;> simp [all]
  | float f      => cases f <;> simp [all]
  | types        => simp [all]
  | instructions => simp [all]

theorem key_inj {f g : Field} (h : f.key = g.key) : f = g := by
  have hall : (all.map key).Nodup := by decide
  exact List.inj_on_of_nodup_map hall (mem_all f) (mem_all g) h

open PushMachine.Configuration (Entry LineError lowered)

/-- The field that an entry adds to. -/
def ofEntry : Entry → Field
  | .setting (.flag f _)    => .flag f
  | .setting (.integer f _) => .integer f
  | .setting (.float f _)   => .float f
  | .allowType _            => .types
  | .allowInstruction _     => .instructions

/-- What a setting of a field adds. -/
def read? : Field → List Char → Option Entry
  | .flag f,       s => (Configuration.readBoolean? s).map fun b => .setting (.flag f b)
  | .integer f,    s => (Number.settingInteger? s).map fun n => .setting (.integer f n)
  | .float f,      s => (Number.settingFloat? s).map fun x => .setting (.float f x)
  | .types,        s => if (Kind.ofLabel? (lowered s)).isSome then some (.allowType (lowered s)) else none
  | .instructions, s =>
    if Configuration.isReference (Text.lowerChars s) then some (.allowInstruction (lowered s)) else none

theorem ofEntry_of_read? {f : Field} {s : List Char} {e : Entry} (h : f.read? s = some e) : ofEntry e = f := by
  cases f with
  | flag f =>
    obtain ⟨b, -, rfl⟩ := Option.map_eq_some_iff.1 h
    rfl
  | integer f =>
    obtain ⟨n, -, rfl⟩ := Option.map_eq_some_iff.1 h
    rfl
  | float f =>
    obtain ⟨x, -, rfl⟩ := Option.map_eq_some_iff.1 h
    rfl
  | types =>
    obtain ⟨-, he⟩ := Option.ite_none_right_eq_some.1 h
    rw [← Option.some.inj he]
    rfl
  | instructions =>
    obtain ⟨-, he⟩ := Option.ite_none_right_eq_some.1 h
    rw [← Option.some.inj he]
    rfl

/-- What is said of a setting that means nothing. -/
def refusal (f : Field) (setting : List Char) : LineError :=
  match f with
  | .flag _       => .notBoolean (String.ofList setting)
  | .integer _    => .notInteger (String.ofList setting)
  | .float _      => .notFloat (String.ofList setting)
  | .types        => .unknownType (String.ofList setting)
  | .instructions => .unknownInstruction (String.ofList setting)

/-- **The settings that mean nothing**: no boolean, no number, not the name of a stack, or not an operation of a stack
that there is. -/
def Unreadable : Field → List Char → Prop
  | .flag _,       s => lowered s ∉ ["true", "t", "1", "yes", "false", "f", "0", "no"]
  | .integer _,    s => Number.settingInteger? s = none
  | .float _,      s => Number.settingFloat? s = none
  | .types,        s => ∀ k : Kind, Text.lowerChars s ≠ k.label.toList
  | .instructions, s => ∀ (k : Kind) (operation : List Char), operation ≠ [] →
      Text.lowerChars s ≠ k.label.toList ++ '.' :: operation

end Field

theorem Kind.isSome_ofLabel?_iff {label : String} :
    (ofLabel? label).isSome = true ↔ ∃ k : Kind, label = k.label := by
  rw [ofLabel?, List.find?_isSome]
  constructor
  · rintro ⟨k, -, hk⟩
    exact ⟨k, (beq_iff_eq.1 hk).symm⟩
  · rintro ⟨k, rfl⟩
    exact ⟨k, by cases k <;> decide, beq_self_eq_true _⟩

namespace Configuration

theorem isReference_iff {cs : List Char} : isReference cs = true ↔
    ∃ (k : Kind) (operation : List Char), operation ≠ [] ∧ cs = k.label.toList ++ '.' :: operation := by
  rw [isReference]
  constructor
  · intro h
    split at h
    · rename_i stack operation hcut
      rw [Bool.and_eq_true, Kind.isSome_ofLabel?_iff, Bool.not_eq_true', List.isEmpty_eq_false_iff] at h
      obtain ⟨hne, k, hk⟩ := h
      refine ⟨k, operation, hne, ?_⟩
      rw [← hk, String.toList_ofList]
      exact (Token.eq_of_cutAtPoint hcut).1
    · cases h
  · rintro ⟨k, operation, hne, rfl⟩
    rw [Token.cutAtPoint_append (Instruction.pointless_label k)]
    simp only [String.ofList_toList, Bool.and_eq_true, Bool.not_eq_true', List.isEmpty_eq_false_iff]
    exact ⟨hne, Kind.isSome_ofLabel?_iff.2 ⟨k, rfl⟩⟩

theorem read?_eq_none_iff {f : Field} {s : List Char} : f.read? s = none ↔ f.Unreadable s := by
  cases f with
  | flag f =>
    rw [Field.read?, Option.map_eq_none_iff, readBoolean?, Field.Unreadable, lowered]
    generalize String.ofList (Text.lowerChars s) = word
    split
    · rename_i h
      rw [List.contains_iff_mem] at h
      simp only [reduceCtorEq, false_iff, not_not]
      exact List.mem_append_left ["false", "f", "0", "no"] h
    · split <;> simp_all
  | integer f => rw [Field.read?, Option.map_eq_none_iff]; rfl
  | float f => rw [Field.read?, Option.map_eq_none_iff]; rfl
  | types =>
    rw [Field.read?, Field.Unreadable, ite_eq_right_iff, lowered, Kind.isSome_ofLabel?_iff]
    simp only [reduceCtorEq, imp_false, not_exists]
    refine forall_congr' fun k => not_congr ?_
    rw [← String.toList_inj, String.toList_ofList]
  | instructions =>
    rw [Field.read?, Field.Unreadable, ite_eq_right_iff, isReference_iff]
    simp only [reduceCtorEq, imp_false, not_exists, not_and]

theorem readSetting_key (f : Field) (s : List Char) :
    readSetting f.key s = (f.read? s).elim (.error (f.refusal s)) .ok := by
  cases f with
  | flag f =>
    have htype : f.key ≠ "type" := by cases f <;> decide
    have hinstruction : f.key ≠ "instruction" := by cases f <;> decide
    have hinteger : IntegerField.all.find? (·.key == f.key) = none := by cases f <;> rfl
    have hfloat : FloatField.all.find? (·.key == f.key) = none := by cases f <;> rfl
    have hflag : FlagField.all.find? (·.key == f.key) = some f := by cases f <;> rfl
    rw [Field.key, readSetting, if_neg htype, if_neg hinstruction]
    simp only [hinteger, hfloat, hflag, Field.read?]
    cases readBoolean? s <;> rfl
  | integer f =>
    have htype : f.key ≠ "type" := by cases f <;> decide
    have hinstruction : f.key ≠ "instruction" := by cases f <;> decide
    have hinteger : IntegerField.all.find? (·.key == f.key) = some f := by cases f <;> rfl
    rw [Field.key, readSetting, if_neg htype, if_neg hinstruction]
    simp only [hinteger, Field.read?]
    cases Number.settingInteger? s <;> rfl
  | float f =>
    have htype : f.key ≠ "type" := by cases f <;> decide
    have hinstruction : f.key ≠ "instruction" := by cases f <;> decide
    have hinteger : IntegerField.all.find? (·.key == f.key) = none := by cases f <;> rfl
    have hfloat : FloatField.all.find? (·.key == f.key) = some f := by cases f <;> rfl
    rw [Field.key, readSetting, if_neg htype, if_neg hinstruction]
    simp only [hinteger, hfloat, Field.read?]
    cases Number.settingFloat? s <;> rfl
  | types =>
    rw [Field.key, readSetting, if_pos rfl, Field.read?, lowered]
    split <;> rfl
  | instructions =>
    rw [Field.key, readSetting, if_neg (by decide), if_pos rfl, Field.read?]
    split <;> rfl

theorem readSetting_unknown {key : String} (h : ∀ f : Field, f.key ≠ key) (s : List Char) :
    readSetting key s = .error (.unknownKey key) := by
  have hinteger : IntegerField.all.find? (·.key == key) = none :=
    List.find?_eq_none.2 fun f _ => by simpa [Field.key] using h (.integer f)
  have hfloat : FloatField.all.find? (·.key == key) = none :=
    List.find?_eq_none.2 fun f _ => by simpa [Field.key] using h (.float f)
  have hflag : FlagField.all.find? (·.key == key) = none :=
    List.find?_eq_none.2 fun f _ => by simpa [Field.key] using h (.flag f)
  rw [readSetting, if_neg fun he => h .types he.symm, if_neg fun he => h .instructions he.symm]
  simp only [hinteger, hfloat, hflag]

/-! ## What is wrong with a line -/

/-- **What can be wrong with a line**: a word without a setting, a word that is no key, or a setting that means
nothing. -/
inductive IllFormed (line : List Char) : LineError → Prop
  | missingSetting {word : List Char} (h : Carries line word []) : IllFormed line (.missingSetting (lowered word))
  | unknownKey {key : String} {setting : List Char} (h : Sets line key setting) (hkey : ∀ f : Field, f.key ≠ key) :
      IllFormed line (.unknownKey key)
  | unreadable {f : Field} {setting : List Char} (h : Sets line f.key setting) (hs : f.Unreadable setting) :
      IllFormed line (f.refusal setting)

def WellFormed (line : List Char) : Prop := ∀ cause, ¬ IllFormed line cause

theorem readLine_of_silent {line : List Char} (h : Silent line) : readLine line = .ok none := by
  rw [readLine, content_of_silent h]

theorem readLine_of_carries {line word setting : List Char} (h : Carries line word setting) :
    readLine line = if setting = [] then .error (.missingSetting (lowered word))
      else (readSetting (lowered word) setting).map some := by
  obtain ⟨hne, hcut⟩ := content_of_carries h
  unfold readLine
  split
  · rename_i hnil
    exact absurd hnil hne
  · rw [hcut]
    simp only [List.isEmpty_iff, lowered]

theorem readLine_of_sets {line setting : List Char} {key : String} (h : Sets line key setting) :
    readLine line = (readSetting key setting).map some := by
  obtain ⟨hne, word, hs, rfl⟩ := h
  rw [readLine_of_carries hs, if_neg hne]

/-- **The reader refuses exactly the lines with which something is wrong.** -/
theorem readLine_eq_error_iff {line : List Char} {cause : LineError} :
    readLine line = .error cause ↔ IllFormed line cause := by
  constructor
  · intro h
    rcases silent_or_carries line with hs | ⟨word, setting, hs⟩
    · rw [readLine_of_silent hs] at h
      cases h
    by_cases hne : setting = []
    · subst hne
      rw [readLine_of_carries hs, if_pos rfl] at h
      cases h
      exact .missingSetting hs
    have hsets : Sets line (lowered word) setting := ⟨hne, word, hs, rfl⟩
    rw [readLine_of_sets hsets] at h
    by_cases hkey : ∃ f : Field, f.key = lowered word
    · obtain ⟨f, hf⟩ := hkey
      rw [← hf] at h hsets
      rw [readSetting_key] at h
      cases hr : f.read? setting with
      | some e => rw [hr] at h; cases h
      | none =>
        rw [hr] at h
        cases h
        exact .unreadable hsets (read?_eq_none_iff.1 hr)
    · rw [not_exists] at hkey
      rw [readSetting_unknown hkey] at h
      cases h
      exact .unknownKey hsets hkey
  · rintro (hs | ⟨hs, hkey⟩ | ⟨hs, hu⟩)
    · rw [readLine_of_carries hs, if_pos rfl]
    · rw [readLine_of_sets hs, readSetting_unknown hkey]
      rfl
    · rw [readLine_of_sets hs, readSetting_key, read?_eq_none_iff.2 hu]
      rfl

theorem wellFormed_iff {line : List Char} : WellFormed line ↔ ∃ e, readLine line = .ok e := by
  unfold WellFormed
  cases h : readLine line with
  | ok e => simp [← readLine_eq_error_iff, h]
  | error cause => simp [← readLine_eq_error_iff, h]

theorem wellFormed_of_silent {line : List Char} (h : Silent line) : WellFormed line :=
  wellFormed_iff.2 ⟨none, readLine_of_silent h⟩

/-- A line that is not silent is well-formed if its word is the key of a field and its setting means something. -/
theorem wellFormed_iff_of_carries {line word setting : List Char} (h : Carries line word setting) :
    WellFormed line ↔ setting ≠ [] ∧ ∃ f : Field, f.key = lowered word ∧ ¬ f.Unreadable setting := by
  constructor
  · intro hwell
    have hne : setting ≠ [] := by
      rintro rfl
      exact hwell _ (.missingSetting h)
    have hsets : Sets line (lowered word) setting := ⟨hne, word, h, rfl⟩
    refine ⟨hne, by_contra fun hnone => ?_⟩
    simp only [not_exists, not_and, not_not] at hnone
    by_cases hkey : ∃ f : Field, f.key = lowered word
    · obtain ⟨f, hf⟩ := hkey
      exact hwell _ (.unreadable (hf ▸ hsets) (hnone f hf))
    · exact hwell _ (.unknownKey hsets (not_exists.1 hkey))
  · rintro ⟨hne, f, hf, hread⟩ cause (hs | ⟨hs, hkey⟩ | ⟨hs, hu⟩)
    · exact hne (h.unique hs).2
    · exact hkey f (hf.trans (hs.unique ⟨hne, word, h, rfl⟩).1.symm)
    · obtain ⟨hg, rfl⟩ := hs.unique ⟨hne, word, h, hf.symm⟩
      exact hread (Field.key_inj hg ▸ hu)

/-! ## What a line adds -/

/-- What a line adds, if it can be read and is not silent. -/
def added? (line : List Char) : Option Entry := (readLine line).toOption.join

theorem added?_of_silent {line : List Char} (h : Silent line) : added? line = none := by
  rw [added?, readLine_of_silent h]
  rfl

theorem added?_of_sets {line setting : List Char} {f : Field} (h : Sets line f.key setting) :
    added? line = f.read? setting := by
  rw [added?, readLine_of_sets h, readSetting_key]
  cases f.read? setting <;> rfl

/-- A line that adds something has a setting of the field that it adds to. -/
theorem exists_sets_of_added? {line : List Char} {e : Entry} (h : added? line = some e) :
    ∃ (f : Field) (setting : List Char), Sets line f.key setting ∧ f.read? setting = some e := by
  rcases silent_or_carries line with hs | ⟨word, setting, hs⟩
  · rw [added?_of_silent hs] at h
    cases h
  by_cases hne : setting = []
  · rw [added?, readLine_of_carries hs, if_pos hne] at h
    cases h
  have hsets : Sets line (lowered word) setting := ⟨hne, word, hs, rfl⟩
  by_cases hkey : ∃ f : Field, f.key = lowered word
  · obtain ⟨f, hf⟩ := hkey
    rw [← hf] at hsets
    rw [added?_of_sets hsets] at h
    exact ⟨f, setting, hsets, h⟩
  · rw [not_exists] at hkey
    rw [added?, readLine_of_sets hsets, readSetting_unknown hkey] at h
    cases h

/-- **What a line adds to a field is what its setting for the key of the field means.** -/
theorem added?_bind {α : Type} {f : Field} {said : Entry → Option α}
    (hsaid : ∀ e : Entry, Field.ofEntry e ≠ f → said e = none) (line : List Char) :
    (added? line).bind said = (setting? f.key line).bind fun s => (f.read? s).bind said := by
  cases hs : setting? f.key line with
  | some setting => rw [added?_of_sets (setting?_eq_some_iff.1 hs)]; rfl
  | none =>
    cases he : added? line with
    | none => rfl
    | some e =>
      obtain ⟨g, setting, hsets, hr⟩ := exists_sets_of_added? he
      refine hsaid e ?_
      rw [Field.ofEntry_of_read? hr]
      rintro rfl
      rw [setting?_eq_some_iff.2 hsets] at hs
      cases hs

end Configuration
end PushMachine
