import Mathlib.Logic.Relation
import PushMachine.Proofs.CaseFolding
import PushMachine.Proofs.Configuration.Effect
/-!
# Configurations that mean the same

A configuration may be revised in four ways: rearranged, as long as the lines with one key stay in their order; given
silent lines or freed of them; restated line by line, with other blanks, another comment or other capitals; and made to
repeat what it allows.  None changes what the lines mean (`Revision.sameMeaning`), so lines that are accepted give the
same options after any number of revisions.
-/
namespace PushMachine
namespace Configuration

/-- The keys of which every setting counts and not the last one only. -/
def collected : List String := ["type", "instruction"]

/-- The same text but for the case of ASCII letters. -/
def SameLetters (cs ds : List Char) : Prop := cs.map Char.toLower = ds.map Char.toLower

/-- **A line put in another way**: with blanks around it, with a comment after it, or, blanks and comment apart, with
the same word and setting, where the case of a word does not matter, nor does that of a setting that is collected. -/
inductive Restated (line : List Char) : List Char → Prop
  | indented {blanks : List Char} (h : Blanks blanks) : Restated line (blanks ++ line)
  | extended {blanks : List Char} (h : Blanks blanks) : Restated line (line ++ blanks)
  | commented (text : List Char) : Restated line (line ++ '#' :: text)
  | recased {line' word word' setting setting' : List Char} (h : Carries line word setting)
      (h' : Carries line' word' setting') (hword : SameLetters word word')
      (hsetting : setting = setting' ∨ lowered word ∈ collected ∧ SameLetters setting setting') : Restated line line'

/-- **One step of a revision.** -/
inductive Revision : List (List Char) → List (List Char) → Prop
  | rearranged {lines lines' : List (List Char)} (hperm : lines.Perm lines')
      (horder : ∀ key ∉ collected, lines.filter (fun line => (setting? key line).isSome) =
        lines'.filter fun line => (setting? key line).isSome) : Revision lines lines'
  | silent {before after : List (List Char)} {line : List Char} (h : Silent line) :
      Revision (before ++ after) (before ++ line :: after)
  | restated {before after : List (List Char)} {line line' : List Char} (h : Restated line line') :
      Revision (before ++ line :: after) (before ++ line' :: after)
  | repeated {before after : List (List Char)} {line setting : List Char} {key : String} (hmem : line ∈ before ++ after)
      (hkey : key ∈ collected) (h : Sets line key setting) : Revision (before ++ after) (before ++ line :: after)

/-! ## One line -/

theorem SameLetters.lowerChars_eq {cs ds : List Char} (h : SameLetters cs ds) :
    Text.lowerChars cs = Text.lowerChars ds := by
  rw [← Text.lowerChars_map cs, ← Text.lowerChars_map ds, h]

theorem SameLetters.lowered_eq {cs ds : List Char} (h : SameLetters cs ds) : lowered cs = lowered ds :=
  congrArg String.ofList h.lowerChars_eq

theorem SameLetters.eq_nil_iff {cs ds : List Char} (h : SameLetters cs ds) : cs = [] ↔ ds = [] := by
  rw [← List.map_eq_nil_iff (f := Char.toLower) (l := cs), h, List.map_eq_nil_iff]

theorem IsComment.append_blanks {comment blanks : List Char} (hc : IsComment comment) (hb : Blanks blanks) :
    ∃ after comment', comment ++ blanks = after ++ comment' ∧ Blanks after ∧ IsComment comment' := by
  rcases hc with rfl | ⟨text, rfl⟩
  · exact ⟨blanks, [], (List.append_nil _).symm, hb, .inl rfl⟩
  · exact ⟨[], _, rfl, List.forall_mem_nil _, .inr ⟨text ++ blanks, rfl⟩⟩

theorem IsComment.append_comment {comment : List Char} (hc : IsComment comment) (text : List Char) :
    IsComment (comment ++ '#' :: text) := by
  rcases hc with rfl | ⟨old, rfl⟩
  · exact .inr ⟨text, rfl⟩
  · exact .inr ⟨old ++ '#' :: text, rfl⟩

theorem Silent.restated {line line' : List Char} (h : Silent line) (hr : Restated line line') : Silent line' := by
  cases hr with
  | recased hs => exact absurd (content_of_silent h) (content_of_carries hs).1
  | indented hb =>
    obtain ⟨before, comment, rfl, hbefore, hc⟩ := h
    exact ⟨_, comment, (List.append_assoc ..).symm, List.forall_mem_append.2 ⟨hb, hbefore⟩, hc⟩
  | extended hb =>
    obtain ⟨before, comment, rfl, hbefore, hc⟩ := h
    obtain ⟨after, comment', heq, hafter, hc'⟩ := hc.append_blanks hb
    refine ⟨before ++ after, comment', ?_, List.forall_mem_append.2 ⟨hbefore, hafter⟩, hc'⟩
    rw [List.append_assoc, heq, List.append_assoc]
  | commented text =>
    obtain ⟨before, comment, rfl, hbefore, hc⟩ := h
    exact ⟨before, _, List.append_assoc .., hbefore, hc.append_comment text⟩

/-- Another way of putting a line carries the same. -/
theorem Carries.restated {line line' word setting : List Char} (h : Carries line word setting)
    (hr : Restated line line') :
    ∃ word' setting', Carries line' word' setting' ∧ SameLetters word word' ∧
      (setting = setting' ∨ lowered word ∈ collected ∧ SameLetters setting setting') := by
  cases hr with
  | recased hs hs' hword hsetting =>
    obtain ⟨rfl, rfl⟩ := h.unique hs
    exact ⟨_, _, hs', hword, hsetting⟩
  | indented hb =>
    obtain ⟨before, gap, after, comment, rfl, hbefore, hrest⟩ := h
    exact ⟨word, setting, ⟨_, gap, after, comment, (List.append_assoc ..).symm,
      List.forall_mem_append.2 ⟨hb, hbefore⟩, hrest⟩, rfl, .inl rfl⟩
  | extended hb =>
    obtain ⟨before, gap, after, comment, rfl, hbefore, hgap, hafter, hc, hrest⟩ := h
    obtain ⟨more, comment', heq, hmore, hc'⟩ := hc.append_blanks hb
    refine ⟨word, setting, ⟨before, gap, after ++ more, comment', ?_, hbefore, hgap,
      List.forall_mem_append.2 ⟨hafter, hmore⟩, hc', hrest⟩, rfl, .inl rfl⟩
    simp only [List.append_assoc, heq]
  | commented text =>
    obtain ⟨before, gap, after, comment, rfl, hbefore, hgap, hafter, hc, hrest⟩ := h
    refine ⟨word, setting, ⟨before, gap, after, _, ?_, hbefore, hgap, hafter, hc.append_comment text, hrest⟩, rfl,
      .inl rfl⟩
    simp only [List.append_assoc]

theorem key_mem_collected_iff {f : Field} : f.key ∈ collected ↔ f = .types ∨ f = .instructions := by
  constructor
  · intro h
    rw [collected, List.mem_pair] at h
    exact h.imp (Field.key_inj (g := .types)) (Field.key_inj (g := .instructions))
  · rintro (rfl | rfl) <;> decide

theorem unreadable_congr {f : Field} (hf : f.key ∈ collected) {setting setting' : List Char}
    (h : SameLetters setting setting') : f.Unreadable setting ↔ f.Unreadable setting' := by
  rcases key_mem_collected_iff.1 hf with rfl | rfl
  · rw [Field.Unreadable, Field.Unreadable, h.lowerChars_eq]
  · rw [Field.Unreadable, Field.Unreadable, h.lowerChars_eq]

/-- **What the two lines mean is the same.** -/
structure SameLine (line line' : List Char) : Prop where
  wellFormed : WellFormed line ↔ WellFormed line'
  setting? {key : String} (h : key ∉ collected) : setting? key line = setting? key line'
  lowered? {key : String} (h : key ∈ collected) : (Configuration.setting? key line).map lowered =
    (Configuration.setting? key line').map lowered

theorem Restated.sameLine {line line' : List Char} (hr : Restated line line') : SameLine line line' := by
  rcases silent_or_carries line with h | ⟨word, setting, h⟩
  · have h' := h.restated hr
    refine ⟨iff_of_true (wellFormed_of_silent h) (wellFormed_of_silent h'), fun _ => ?_, fun _ => ?_⟩
    · rw [setting?_of_silent h, setting?_of_silent h']
    · rw [setting?_of_silent h, setting?_of_silent h']
  · obtain ⟨word', setting', h', hword, hsetting⟩ := h.restated hr
    have hnil : setting = [] ↔ setting' = [] := by
      rcases hsetting with rfl | ⟨-, hs⟩
      · rfl
      · exact hs.eq_nil_iff
    refine ⟨?_, fun {key} hkey => ?_, fun {key} hkey => ?_⟩
    · rw [wellFormed_iff_of_carries h, wellFormed_iff_of_carries h', ne_eq, ne_eq, hnil, hword.lowered_eq]
      refine and_congr_right fun _ => exists_congr fun f => and_congr_right fun hf => not_congr ?_
      rcases hsetting with rfl | ⟨hc, hs⟩
      · rfl
      · exact unreadable_congr (by rwa [hf, ← hword.lowered_eq]) hs
    · rw [setting?_of_carries h, setting?_of_carries h', ← hword.lowered_eq]
      rcases hsetting with rfl | ⟨hc, -⟩
      · rfl
      · have hne : lowered word ≠ key := by
          rintro rfl
          exact hkey hc
        rw [if_neg fun hc => hne hc.1, if_neg fun hc => hne hc.1]
    · rw [setting?_of_carries h, setting?_of_carries h', ← hword.lowered_eq]
      rcases hsetting with rfl | ⟨-, hs⟩
      · rfl
      · simp only [ne_eq, hnil]
        split
        · exact congrArg some hs.lowered_eq
        · rfl

/-! ## All lines -/

/-- **What the two configurations mean is the same**: all lines of both or not all of either are well-formed, and the
settings are the same, or of a key that is collected the same but for their order, number and case. -/
structure SameMeaning (lines lines' : List (List Char)) : Prop where
  wellFormed : (∀ line ∈ lines, WellFormed line) ↔ ∀ line ∈ lines', WellFormed line
  settings {key : String} (h : key ∉ collected) : settings key lines = settings key lines'
  lowered {key : String} (h : key ∈ collected) (name : String) :
    name ∈ (Configuration.settings key lines).map lowered ↔ name ∈ (Configuration.settings key lines').map lowered

theorem settings_append (key : String) (before after : List (List Char)) :
    settings key (before ++ after) = settings key before ++ settings key after := List.filterMap_append

theorem settings_cons (key : String) (line : List Char) (lines : List (List Char)) :
    settings key (line :: lines) = (setting? key line).toList ++ settings key lines := by
  rw [settings, List.filterMap_cons]
  cases setting? key line <;> rfl

theorem sameMeaning_of_perm {lines lines' : List (List Char)} (hperm : lines.Perm lines')
    (horder : ∀ key ∉ collected, lines.filter (fun line => (setting? key line).isSome) =
      lines'.filter fun line => (setting? key line).isSome) : SameMeaning lines lines' where
  wellFormed := forall_congr' fun line => by rw [hperm.mem_iff]
  settings {key} h := by
    have hfilter (ls : List (List Char)) :
        settings key ls = (ls.filter fun line => (setting? key line).isSome).filterMap (setting? key) := by
      rw [List.filterMap_filter]
      exact List.filterMap_congr fun line _ => by cases setting? key line <;> rfl
    rw [hfilter, hfilter, horder key h]
  lowered {key} _ name := ((hperm.filterMap _).map _).mem_iff

theorem sameMeaning_of_silent {before after : List (List Char)} {line : List Char} (h : Silent line) :
    SameMeaning (before ++ after) (before ++ line :: after) where
  wellFormed := by
    simp only [List.forall_mem_append, List.forall_mem_cons, wellFormed_of_silent h, true_and]
  settings _ := by
    rw [settings_append, settings_append, settings_cons, setting?_of_silent h]
    rfl
  lowered _ _ := by
    rw [settings_append, settings_append, settings_cons, setting?_of_silent h]
    rfl

theorem sameMeaning_of_sameLine {before after : List (List Char)} {line line' : List Char} (h : SameLine line line') :
    SameMeaning (before ++ line :: after) (before ++ line' :: after) where
  wellFormed := by
    simp only [List.forall_mem_append, List.forall_mem_cons, h.wellFormed]
  settings hkey := by
    rw [settings_append, settings_append, settings_cons, settings_cons, h.setting? hkey]
  lowered hkey _ := by
    simp only [settings_append, settings_cons, List.map_append, ← Option.toList_map, h.lowered? hkey]

theorem sameMeaning_of_repeated {before after : List (List Char)} {line setting : List Char} {key : String}
    (hmem : line ∈ before ++ after) (hkey : key ∈ collected) (h : Sets line key setting) :
    SameMeaning (before ++ after) (before ++ line :: after) where
  wellFormed := by
    rw [List.forall_mem_append, List.forall_mem_append, List.forall_mem_cons]
    refine ⟨fun hall => ⟨hall.1, ?_, hall.2⟩, fun hall => ⟨hall.1, hall.2.2⟩⟩
    exact List.forall_mem_append.2 hall line hmem
  settings {key'} hkey' := by
    have hnone : setting? key' line = none := Option.eq_none_iff_forall_ne_some.2 fun s hs =>
      hkey' ((h.unique (setting?_eq_some_iff.1 hs)).1 ▸ hkey)
    rw [settings_append, settings_append, settings_cons, hnone]
    rfl
  lowered {key'} _ name := by
    have hold : ∀ s ∈ (setting? key' line).toList, s ∈ settings key' (before ++ after) := fun s hs =>
      List.mem_filterMap.2 ⟨line, hmem, Option.mem_toList.1 hs⟩
    simp only [List.mem_map]
    refine exists_congr fun s => and_congr_left fun _ => ?_
    specialize hold s
    rw [settings_append, List.mem_append] at hold
    rw [settings_append, settings_append, settings_cons, List.mem_append, List.mem_append, List.mem_append]
    tauto

theorem Revision.sameMeaning {lines lines' : List (List Char)} (h : Revision lines lines') :
    SameMeaning lines lines' := by
  cases h with
  | rearranged hperm horder    => exact sameMeaning_of_perm hperm horder
  | silent hline               => exact sameMeaning_of_silent hline
  | restated hline             => exact sameMeaning_of_sameLine hline.sameLine
  | repeated hmem hkey hline   => exact sameMeaning_of_repeated hmem hkey hline

theorem SameMeaning.equivalence : Equivalence SameMeaning where
  refl _ := ⟨Iff.rfl, fun _ => rfl, fun _ _ => Iff.rfl⟩
  symm h := ⟨h.wellFormed.symm, fun hk => (h.settings hk).symm, fun hk name => (h.lowered hk name).symm⟩
  trans h h' := ⟨h.wellFormed.trans h'.wellFormed, fun hk => (h.settings hk).trans (h'.settings hk),
    fun hk name => (h.lowered hk name).trans (h'.lowered hk name)⟩

/-- Any number of revisions, made or taken back, leaves what the lines mean. -/
theorem sameMeaning_of_revisions {lines lines' : List (List Char)} (h : Relation.EqvGen Revision lines lines') :
    SameMeaning lines lines' :=
  SameMeaning.equivalence.eqvGen_iff.1 (h.mono fun _ _ => Revision.sameMeaning)

theorem Gives.of_sameMeaning {lines lines' : List (List Char)} {o : Options} (h : SameMeaning lines lines')
    (ho : Gives lines o) : Gives lines' o where
  flag f := h.settings (mt (key_mem_collected_iff (f := .flag f)).1 (by simp)) ▸ ho.flag f
  integer f := h.settings (mt (key_mem_collected_iff (f := .integer f)).1 (by simp)) ▸ ho.integer f
  float f := h.settings (mt (key_mem_collected_iff (f := .float f)).1 (by simp)) ▸ ho.float f
  types := ho.types.trans (NameSet.ofList_congr (h.lowered (by decide)))
  instructions := ho.instructions.trans (NameSet.ofList_congr (h.lowered (by decide)))

end Configuration

/-- **Lines that are accepted may be revised in any number of steps**: the options stay the same.  They are what the
lines give: of each field what its last setting means, or its default, and every type and instruction that is named. -/
theorem Options.ofLines_revised {lines : List (List Char)} {o : Options} (h : ofLines lines = .ok o) :
    (∀ lines', Relation.EqvGen Configuration.Revision lines lines' → ofLines lines' = .ok o) ∧
      Configuration.Gives lines o := by
  obtain ⟨hwell, hgives, hvalid⟩ := ofLines_eq_ok_iff.1 h
  refine ⟨fun lines' hrevised => ?_, hgives⟩
  have hsame := Configuration.sameMeaning_of_revisions hrevised
  exact ofLines_eq_ok_iff.2 ⟨hsame.wellFormed.1 hwell, hgives.of_sameMeaning hsame, hvalid⟩

theorem Options.ofLines_revised_seed :
    ofLines ["random-seed 1".toList, "random-seed 2".toList] = .ok { seed := 2 } ∧
      ofLines ["# seeds".toList, "random-seed 1".toList, "random-seed 2# last".toList] = .ok { seed := 2 } := by
  have h : ofLines ["random-seed 1".toList, "random-seed 2".toList] = .ok { seed := 2 } := rfl
  have hlast : Configuration.Revision ["random-seed 1".toList, "random-seed 2".toList]
      ["random-seed 1".toList, "random-seed 2# last".toList] :=
    @Configuration.Revision.restated ["random-seed 1".toList] [] "random-seed 2".toList _ (.commented " last".toList)
  have hseeds : Configuration.Revision ["random-seed 1".toList, "random-seed 2# last".toList]
      ["# seeds".toList, "random-seed 1".toList, "random-seed 2# last".toList] :=
    @Configuration.Revision.silent [] _ _ ⟨[], _, rfl, List.forall_mem_nil _, .inr ⟨" seeds".toList, rfl⟩⟩
  exact ⟨h, (ofLines_revised h).1 _ (.trans _ _ _ (.rel _ _ hlast) (.rel _ _ hseeds))⟩

end PushMachine
