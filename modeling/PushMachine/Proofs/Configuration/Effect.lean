import Mathlib.Data.List.Sort
import PushMachine.Proofs.Configuration.Line
/-!
# What lines give together

Lines are read in their order as long as they are well-formed (`readLines_append`); nothing after the first one that is
not is looked at.  `Gives` says of lines that can all be read what each field is: what the last setting for its key
means, or the default, and of types and instructions every setting in lower case.  It leaves no choice (`Gives.unique`)
and is what the entries add up to (`gives_foldl`).
-/
namespace PushMachine

/-! ## Sets of names -/

namespace NameSet

theorem pairwise_insert {x : String} : ∀ {s : NameSet}, s.Pairwise (· < ·) → (insert x s).Pairwise (· < ·)
  | [],     _ => List.pairwise_singleton _ _
  | y :: s, h => by
    obtain ⟨hy, hs⟩ := List.pairwise_cons.1 h
    unfold insert
    split
    · rename_i hxy
      refine List.pairwise_cons.2 ⟨fun z hz => ?_, h⟩
      rcases List.mem_cons.1 hz with rfl | hz
      · exact hxy
      · exact String.lt_trans hxy (hy z hz)
    · rename_i hxy
      split
      · exact h
      · rename_i hne
        refine List.pairwise_cons.2 ⟨fun z hz => ?_, pairwise_insert hs⟩
        rcases (mem_insert s).1 hz with rfl | hz
        · exact Std.lt_of_le_of_ne hxy (Ne.symm hne)
        · exact hy z hz

theorem pairwise_ofList : ∀ xs : List String, (ofList xs).Pairwise (· < ·)
  | []      => .nil
  | _ :: xs => pairwise_insert (pairwise_ofList xs)

/-- **A set is determined by its members.** -/
theorem ofList_congr {xs ys : List String} (h : ∀ x, x ∈ xs ↔ x ∈ ys) : ofList xs = ofList ys :=
  (pairwise_ofList xs).eq_of_mem_iff (pairwise_ofList ys) fun x => by rw [mem_ofList, mem_ofList, h]

theorem foldl_insert (xs : List String) : xs.foldl (fun s x => insert x s) [] = ofList xs := by
  rw [List.foldl_eq_foldr_reverse]
  exact ofList_congr fun x => List.mem_reverse

end NameSet

namespace Configuration

/-! ## Reading one line after the other -/

/-- What lines add, those that cannot be read left out. -/
def entries (lines : List (List Char)) : List Entry := lines.filterMap added?

/-- **Well-formed lines add what they say, and the reader goes on.** -/
theorem readLines_append : ∀ (before : List (List Char)), (∀ line ∈ before, WellFormed line) → ∀ number rest,
    readLines number (before ++ rest) = (readLines (number + before.length) rest).map (entries before ++ ·)
  | [], _, number, rest => by
    rw [List.nil_append, List.length_nil, Nat.add_zero]
    cases readLines number rest <;> rfl
  | line :: before, h, number, rest => by
    obtain ⟨hline, hbefore⟩ := List.forall_mem_cons.1 h
    obtain ⟨e, he⟩ := wellFormed_iff.1 hline
    have hentry : added? line = e := by rw [added?, he]; rfl
    have hrest := readLines_append before hbefore (number + 1) rest
    have hnumber : number + (line :: before).length = number + 1 + before.length := by rw [List.length_cons]; omega
    rw [List.cons_append, readLines, he, hnumber, entries, List.filterMap_cons, hentry]
    cases e with
    | none => exact hrest
    | some e =>
      simp only [hrest, entries]
      cases readLines (number + 1 + before.length) rest <;> rfl

theorem readLines_of_wellFormed {lines : List (List Char)} (h : ∀ line ∈ lines, WellFormed line) (number : Nat) :
    readLines number lines = .ok (entries lines) := by
  have happ := readLines_append lines h number []
  rw [List.append_nil] at happ
  rw [happ, readLines, Except.map, List.append_nil]

/-- **The first line that is ill-formed is the error, whatever comes after it.** -/
theorem readLines_of_illFormed {before : List (List Char)} {line : List Char} {cause : LineError}
    (h : ∀ l ∈ before, WellFormed l) (hline : IllFormed line cause) (number : Nat) (after : List (List Char)) :
    readLines number (before ++ line :: after) = .error (.line (number + before.length) cause) := by
  rw [readLines_append before h, readLines, readLine_eq_error_iff.2 hline]
  rfl

theorem wellFormed_or_first : ∀ lines : List (List Char), (∀ line ∈ lines, WellFormed line) ∨
    ∃ before line after cause, lines = before ++ line :: after ∧ (∀ l ∈ before, WellFormed l) ∧ IllFormed line cause
  | []            => .inl (List.forall_mem_nil _)
  | line :: lines => by
    by_cases hline : WellFormed line
    · rcases wellFormed_or_first lines with h | ⟨before, bad, after, cause, rfl, hbefore, hbad⟩
      · exact .inl (List.forall_mem_cons.2 ⟨hline, h⟩)
      · exact .inr ⟨line :: before, bad, after, cause, rfl, List.forall_mem_cons.2 ⟨hline, hbefore⟩, hbad⟩
    · obtain ⟨cause, hcause⟩ := not_forall_not.1 hline
      exact .inr ⟨[], line, lines, cause, rfl, List.forall_mem_nil _, hcause⟩

/-! ## What the options are -/

/-- The settings of lines for a key, in their order. -/
def settings (key : String) (lines : List (List Char)) : List (List Char) := lines.filterMap (setting? key)

/-- The value is what the last setting means, or the default if there is none. -/
def LastReads {α : Type} (read : List Char → Option α) (default : α) (ss : List (List Char)) (value : α) : Prop :=
  match ss.getLast? with
  | none   => value = default
  | some s => read s = some value

/-- **The options that lines give**: of every flag, integer and float what the last setting for its key means, or the
default; the types and instructions that are named, in lower case. -/
structure Gives (lines : List (List Char)) (o : Options) : Prop where
  flag (f : FlagField) : LastReads readBoolean? (({} : Options).flag f) (settings f.key lines) (o.flag f)
  integer (f : IntegerField) :
    LastReads Number.settingInteger? (({} : Options).integer f) (settings f.key lines) (o.integer f)
  float (f : FloatField) : LastReads Number.settingFloat? (({} : Options).float f) (settings f.key lines) (o.float f)
  types : o.types = NameSet.ofList ((settings "type" lines).map lowered)
  instructions : o.instructions = NameSet.ofList ((settings "instruction" lines).map lowered)

theorem LastReads.unique {α : Type} {read : List Char → Option α} {default x y : α} {ss : List (List Char)}
    (hx : LastReads read default ss x) (hy : LastReads read default ss y) : x = y := by
  unfold LastReads at hx hy
  cases hlast : ss.getLast? with
  | none =>
    rw [hlast] at hx hy
    exact hx.trans hy.symm
  | some s =>
    rw [hlast] at hx hy
    exact Option.some.inj (hx.symm.trans hy)

/-- **Lines give one choice of options only.** -/
theorem Gives.unique {lines : List (List Char)} {o o' : Options} (h : Gives lines o) (h' : Gives lines o') :
    o = o' := by
  have hflag (f : FlagField) : o.flag f = o'.flag f := (h.flag f).unique (h'.flag f)
  have hinteger (f : IntegerField) : o.integer f = o'.integer f := (h.integer f).unique (h'.integer f)
  have hfloat (f : FloatField) : o.float f = o'.float f := (h.float f).unique (h'.float f)
  have htypes := h.types.trans h'.types.symm
  have hinstructions := h.instructions.trans h'.instructions.symm
  cases o
  cases o'
  congr
  · exact hflag .pushProgram
  · exact hflag .popProgram
  · exact hinteger .stepLimit
  · exact hfloat .nameProbability
  · exact hinteger .programPoints
  · exact hinteger .randomPoints
  · exact hfloat .maxFloat
  · exact hfloat .minFloat
  · exact hinteger .maxInteger
  · exact hinteger .minInteger
  · exact hflag .tracing
  · exact hinteger .seed

/-! ## Adding up entries -/

/-- A field that an entry either replaces or leaves is what the last entry that speaks of it says. -/
theorem get_foldl {α : Type} {get : Options → α} {said : Entry → Option α}
    (hadd : ∀ o e, get (o.add e) = (said e).getD (get o)) :
    ∀ (es : List Entry) (o : Options), get (es.foldl Options.add o) = (es.filterMap said).getLast?.getD (get o)
  | [],      _ => rfl
  | e :: es, o => by
    rw [List.foldl_cons, get_foldl hadd es, hadd, List.filterMap_cons]
    cases said e with
    | none   => rfl
    | some x => rw [List.getLast?_cons]; rfl

/-- A set that an entry either adds a name to or leaves has every name that an entry adds. -/
theorem set_foldl {get : Options → NameSet} {said : Entry → Option String}
    (hadd : ∀ o e, get (o.add e) = ((said e).map fun x => NameSet.insert x (get o)).getD (get o)) :
    ∀ (es : List Entry) (o : Options),
      get (es.foldl Options.add o) = (es.filterMap said).foldl (fun s x => NameSet.insert x s) (get o)
  | [],      _ => rfl
  | e :: es, o => by
    rw [List.foldl_cons, set_foldl hadd es, hadd, List.filterMap_cons]
    cases said e <;> rfl

theorem filterMap_entries {α : Type} {f : Field} {said : Entry → Option α}
    (hsaid : ∀ e : Entry, Field.ofEntry e ≠ f → said e = none)
    (lines : List (List Char)) :
    (entries lines).filterMap said = (settings f.key lines).filterMap fun s => (f.read? s).bind said := by
  rw [entries, settings, List.filterMap_filterMap, List.filterMap_filterMap]
  exact List.filterMap_congr fun line _ => added?_bind hsaid line

theorem isSome_read? {lines : List (List Char)} (h : ∀ line ∈ lines, WellFormed line) {f : Field} {s : List Char}
    (hs : s ∈ settings f.key lines) : (f.read? s).isSome = true := by
  obtain ⟨line, hline, hset⟩ := List.mem_filterMap.1 hs
  rw [Option.isSome_iff_ne_none]
  intro hnone
  exact h line hline _ (.unreadable (setting?_eq_some_iff.1 hset) (read?_eq_none_iff.1 hnone))

theorem getLast?_filterMap {α β : Type} {read : α → Option β} :
    ∀ {ss : List α}, (∀ s ∈ ss, (read s).isSome = true) → (ss.filterMap read).getLast? = ss.getLast?.bind read
  | [],      _ => rfl
  | s :: ss, h => by
    obtain ⟨hs, hss⟩ := List.forall_mem_cons.1 h
    obtain ⟨x, hx⟩ := Option.isSome_iff_exists.1 hs
    rw [List.filterMap_cons_some hx, List.getLast?_cons, List.getLast?_cons, getLast?_filterMap hss]
    cases hlast : ss.getLast? with
    | none => exact hx.symm
    | some t =>
      obtain ⟨y, hy⟩ := Option.isSome_iff_exists.1 (hss t (List.mem_of_getLast? hlast))
      simp [hy]

/-- **A field that its key's settings replace is what the last of them means, or the default.** -/
theorem lastReads_foldl {α : Type} {f : Field} (get : Options → α) (said : Entry → Option α)
    {read : List Char → Option α} (hadd : ∀ o e, get (o.add e) = (said e).getD (get o))
    (hother : ∀ e : Entry, Field.ofEntry e ≠ f → said e = none)
    (hread : ∀ s, (f.read? s).bind said = read s) (hsome : ∀ s, (f.read? s).isSome = true → (read s).isSome = true)
    {lines : List (List Char)} (h : ∀ line ∈ lines, WellFormed line) :
    LastReads read (get {}) (settings f.key lines) (get ((entries lines).foldl Options.add {})) := by
  have hall : ∀ s ∈ settings f.key lines, (read s).isSome = true := fun s hs => hsome s (isSome_read? h hs)
  rw [get_foldl hadd, filterMap_entries hother, funext hread, getLast?_filterMap hall, LastReads]
  split
  · rename_i hnone
    rw [hnone]
    rfl
  · rename_i s hlast
    obtain ⟨x, hx⟩ := Option.isSome_iff_exists.1 (hall s (List.mem_of_getLast? hlast))
    rw [hlast, Option.bind_some, hx]
    rfl

/-- **A set that its key's settings add to is every one of them in lower case.** -/
theorem ofList_foldl {f : Field} (get : Options → NameSet) (said : Entry → Option String)
    (hadd : ∀ o e, get (o.add e) = ((said e).map fun x => NameSet.insert x (get o)).getD (get o))
    (hempty : get {} = [])
    (hother : ∀ e : Entry, Field.ofEntry e ≠ f → said e = none)
    (hread : ∀ s, (f.read? s).isSome = true → (f.read? s).bind said = some (lowered s))
    {lines : List (List Char)} (h : ∀ line ∈ lines, WellFormed line) :
    get ((entries lines).foldl Options.add {}) = NameSet.ofList ((settings f.key lines).map lowered) := by
  have hall : (settings f.key lines).filterMap (fun s => (f.read? s).bind said) =
      (settings f.key lines).map lowered := by
    rw [← List.filterMap_eq_map]
    exact List.filterMap_congr fun s hs => hread s (isSome_read? h hs)
  rw [set_foldl hadd, hempty, filterMap_entries hother, hall, NameSet.foldl_insert]

/-! ## What each entry says -/

namespace Entry

def flag? (f : FlagField) : Entry → Option Bool
  | .setting (.flag g b) => if g = f then some b else none
  | _                    => none

def integer? (f : IntegerField) : Entry → Option Int
  | .setting (.integer g n) => if g = f then some n else none
  | _                       => none

def float? (f : FloatField) : Entry → Option Float
  | .setting (.float g x) => if g = f then some x else none
  | _                     => none

def type? : Entry → Option String
  | .allowType label => some label
  | _                => none

def instruction? : Entry → Option String
  | .allowInstruction token => some token
  | _                       => none

end Entry

theorem flag_add (f : FlagField) (o : Options) (e : Entry) : (o.add e).flag f = (e.flag? f).getD (o.flag f) := by
  cases e with
  | setting s => rcases s with ⟨g, _⟩ | ⟨g, _⟩ | ⟨g, _⟩ <;> cases f <;> cases g <;> rfl
  | allowType label => cases f <;> rfl
  | allowInstruction token => cases f <;> rfl

theorem integer_add (f : IntegerField) (o : Options) (e : Entry) :
    (o.add e).integer f = (e.integer? f).getD (o.integer f) := by
  cases e with
  | setting s => rcases s with ⟨g, _⟩ | ⟨g, _⟩ | ⟨g, _⟩ <;> cases f <;> cases g <;> rfl
  | allowType label => cases f <;> rfl
  | allowInstruction token => cases f <;> rfl

theorem float_add (f : FloatField) (o : Options) (e : Entry) :
    (o.add e).float f = (e.float? f).getD (o.float f) := by
  cases e with
  | setting s => rcases s with ⟨g, _⟩ | ⟨g, _⟩ | ⟨g, _⟩ <;> cases f <;> cases g <;> rfl
  | allowType label => cases f <;> rfl
  | allowInstruction token => cases f <;> rfl

theorem types_add (o : Options) (e : Entry) :
    (o.add e).types = (e.type?.map fun x => NameSet.insert x o.types).getD o.types := by
  cases e with
  | setting s => rcases s with ⟨g, _⟩ | ⟨g, _⟩ | ⟨g, _⟩ <;> cases g <;> rfl
  | allowType label => rfl
  | allowInstruction token => rfl

theorem instructions_add (o : Options) (e : Entry) :
    (o.add e).instructions = (e.instruction?.map fun x => NameSet.insert x o.instructions).getD o.instructions := by
  cases e with
  | setting s => rcases s with ⟨g, _⟩ | ⟨g, _⟩ | ⟨g, _⟩ <;> cases g <;> rfl
  | allowType label => rfl
  | allowInstruction token => rfl

/-- **The entries of well-formed lines add up to what the lines give.** -/
theorem gives_foldl {lines : List (List Char)} (h : ∀ line ∈ lines, WellFormed line) :
    Gives lines ((entries lines).foldl Options.add {}) where
  flag f := by
    refine lastReads_foldl (f := .flag f) (·.flag f) (Entry.flag? f) (flag_add f) (fun e he => ?_)
      (fun s => ?_) (fun s hs => ?_) h
    · cases e with
      | setting s =>
        cases s with
        | flag g b => exact if_neg fun hg => he (congrArg Field.flag hg)
        | _ => rfl
      | _ => rfl
    · cases hr : readBoolean? s <;> simp [Field.read?, hr, Entry.flag?]
    · simpa [Field.read?] using hs
  integer f := by
    refine lastReads_foldl (f := .integer f) (·.integer f) (Entry.integer? f) (integer_add f) (fun e he => ?_)
      (fun s => ?_) (fun s hs => ?_) h
    · cases e with
      | setting s =>
        cases s with
        | integer g n => exact if_neg fun hg => he (congrArg Field.integer hg)
        | _ => rfl
      | _ => rfl
    · cases hr : Number.settingInteger? s <;> simp [Field.read?, hr, Entry.integer?]
    · simpa [Field.read?] using hs
  float f := by
    refine lastReads_foldl (f := .float f) (·.float f) (Entry.float? f) (float_add f) (fun e he => ?_)
      (fun s => ?_) (fun s hs => ?_) h
    · cases e with
      | setting s =>
        cases s with
        | float g x => exact if_neg fun hg => he (congrArg Field.float hg)
        | _ => rfl
      | _ => rfl
    · cases hr : Number.settingFloat? s <;> simp [Field.read?, hr, Entry.float?]
    · simpa [Field.read?] using hs
  types := by
    refine ofList_foldl (f := .types) (·.types) Entry.type? types_add rfl (fun e he => ?_) (fun s hs => ?_) h
    · cases e with
      | allowType label => exact absurd rfl he
      | _ => rfl
    · obtain ⟨e, hr⟩ := Option.isSome_iff_exists.1 hs
      rw [hr]
      rw [← (Option.ite_none_right_eq_some.1 hr).2]
      rfl
  instructions := by
    refine ofList_foldl (f := .instructions) (·.instructions) Entry.instruction? instructions_add rfl
      (fun e he => ?_) (fun s hs => ?_) h
    · cases e with
      | allowInstruction token => exact absurd rfl he
      | _ => rfl
    · obtain ⟨e, hr⟩ := Option.isSome_iff_exists.1 hs
      rw [hr]
      rw [← (Option.ite_none_right_eq_some.1 hr).2]
      rfl

end Configuration

/-- **Well-formed lines are accepted if what they give breaks no rule.** -/
theorem Options.ofLines_of_gives {lines : List (List Char)} {o : Options}
    (h : ∀ line ∈ lines, Configuration.WellFormed line) (ho : Configuration.Gives lines o) :
    ofLines lines = if o.problems = [] then .ok o else .error (.invalid o.problems) := by
  have hsum := (Configuration.gives_foldl h).unique ho
  rw [ofLines, Configuration.readLines_of_wellFormed h]
  dsimp only
  rw [hsum, validated]
  cases o.problems <;> rfl

/-- **Lines are accepted if all are well-formed and what they give breaks no rule.** -/
theorem Options.ofLines_eq_ok_iff {lines : List (List Char)} {o : Options} : ofLines lines = .ok o ↔
    (∀ line ∈ lines, Configuration.WellFormed line) ∧ Configuration.Gives lines o ∧ o.problems = [] := by
  constructor
  · intro h
    rcases Configuration.wellFormed_or_first lines with hwell | ⟨before, line, after, cause, rfl, hbefore, hline⟩
    · have hgives := Configuration.gives_foldl hwell
      rw [ofLines_of_gives hwell hgives] at h
      split at h
      · rename_i hvalid
        cases h
        exact ⟨hwell, hgives, hvalid⟩
      · cases h
    · rw [ofLines, Configuration.readLines_of_illFormed hbefore hline] at h
      cases h
  · rintro ⟨hwell, hgives, hvalid⟩
    rw [ofLines_of_gives hwell hgives, if_pos hvalid]

end PushMachine
