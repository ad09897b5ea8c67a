import PushMachine.Command.Execute
import PushMachine.Proofs.Configuration.Verdict
import PushMachine.Proofs.Json.Printing
/-!
# What commands print as documents

A machine shows a float that is not finite as a string, so a document about a run is JSON whatever its stacks hold, and
so is one about a program that is only parsed.  The options of a configuration are shown as they are.  Valid options
have a finite probability, but the ends of the range of random floats may be infinite, and then the document is no JSON
(`isText_output_iff`).
-/
namespace PushMachine

/-! ## Printed texts -/

namespace Text

theorem controlLength_eq_zero {c : Char} (h : c ≠ escape) (cs : List Char) : controlLength (c :: cs) = 0 := by
  unfold controlLength
  split
  · rename_i heq
    cases heq
    dsimp only
    split
    · rw [if_neg]
      simp [h]
    · rfl
  · rfl

/-- A text without escape characters is printed as it stands. -/
theorem plain_eq_self {s : String} (h : escape ∉ s.toList) : plain s = s := by
  have hcopy : ∀ cs : List Char, escape ∉ cs → copyPlain [] 0 cs = cs := by
    intro cs
    induction cs with
    | nil => exact fun _ => rfl
    | cons c cs ih =>
      intro hcs
      rw [List.mem_cons, not_or] at hcs
      rw [copyPlain, controlLength_eq_zero (Ne.symm hcs.1)]
      dsimp only
      rw [copyPlain_eq_append, ih hcs.2]
      rfl
  rw [plain, hcopy _ h, String.ofList_toList]

end Text

namespace Json

theorem mem_itemFloats {x : Float} : ∀ {js : List Json}, x ∈ itemFloats js ↔ ∃ j ∈ js, x ∈ j.floats
  | []     => by simp [itemFloats]
  | _ :: _ => by simp [itemFloats, mem_itemFloats]

theorem mem_memberFloats {x : Float} : ∀ {ms : List (String × Json)}, x ∈ memberFloats ms ↔ ∃ m ∈ ms, x ∈ m.2.floats
  | []          => by simp [memberFloats]
  | (_, _) :: _ => by simp [memberFloats, mem_memberFloats]

end Json

namespace Command

open Json (IsText)

/-- A document is printed with a line feed after it. -/
theorem toList_printed_text (j : Json) : (printed [j.text]).toList = j.text.toList ++ ['\n'] := by
  have hlines : unlines [j.text] = j.text ++ "\n" := by
    rw [unlines, List.map_singleton, String.join_cons, String.join_nil, String.append_empty]
  have hescape : Text.escape ∉ (j.text ++ "\n").toList := by
    rw [String.toList_append]
    exact fun h => (List.mem_append.1 h).elim (Json.piece_textAt 0 j).printable (by decide)
  rw [printed, hlines, Text.plain_eq_self hescape, String.toList_append]
  rfl

theorem isText_printed_iff (j : Json) :
    IsText (printed [j.text]).toList ↔ ∀ x ∈ j.floats, Number.isFinite x = true := by
  rw [toList_printed_text]
  exact Json.isText_text_iff j (List.forall_mem_singleton.2 (by decide))

/-! ## Runs and programs -/

theorem finite_itemJson (k : Kind) (item : k.Item) : ∀ x ∈ (k.itemJson item).floats, Number.isFinite x = true := by
  intro x hx
  cases k with
  | float =>
    have hjson : Kind.itemJson .float item =
      if Number.isFinite item then .float item else .string (Number.floatText item) := rfl
    rw [hjson] at hx
    split at hx
    · rename_i hfinite
      rwa [List.mem_singleton.1 hx]
    · cases hx
  | _ => cases hx

theorem finite_stacksJson {ρ : Type} (o : Options) (m : Machine ρ) :
    ∀ x ∈ (m.stacksJson o).floats, Number.isFinite x = true := by
  intro x hx
  obtain ⟨member, hm, hx⟩ := Json.mem_memberFloats.1 hx
  obtain ⟨k, -, rfl⟩ := List.mem_map.1 hm
  obtain ⟨j, hj, hx⟩ := Json.mem_itemFloats.1 hx
  obtain ⟨item, -, rfl⟩ := List.mem_map.1 hj
  exact finite_itemJson k item x hx

theorem finite_bindingsJson {ρ : Type} (m : Machine ρ) : ∀ x ∈ m.bindingsJson.floats, Number.isFinite x = true := by
  intro x hx
  obtain ⟨member, hm, hx⟩ := Json.mem_memberFloats.1 hx
  obtain ⟨binding, -, rfl⟩ := List.mem_map.1 hm
  cases hx

/-- **A document about a run has finite floats only**, whatever the stacks hold. -/
theorem finite_runJson (o : Options) (e : Ending) (m : Machine Twister) :
    ∀ x ∈ (runJson o e m).floats, Number.isFinite x = true := by
  intro x hx
  obtain ⟨member, hm, hx⟩ := Json.mem_memberFloats.1 hx
  simp only [List.mem_cons, List.not_mem_nil, or_false] at hm
  rcases hm with rfl | rfl | rfl | rfl | rfl | rfl
  · cases hx
  · cases hx
  · cases hx
  · revert hx
    cases e.message? <;> exact fun hx => nomatch hx
  · exact finite_stacksJson o m x hx
  · exact finite_bindingsJson m x hx

/-! ## Options -/

theorem floats_names (names : List String) : (Json.array (names.map .string)).floats = [] := by
  refine List.eq_nil_iff_forall_not_mem.2 fun x hx => ?_
  obtain ⟨j, hj, hx⟩ := Json.mem_itemFloats.1 hx
  obtain ⟨name, -, rfl⟩ := List.mem_map.1 hj
  cases hx

theorem floats_options (o : Options) : o.json.floats = [o.nameProbability, o.maxFloat, o.minFloat] := by
  have htypes := floats_names o.types
  have hinstructions := floats_names o.instructions
  simp only [Options.json, Options.members, Field.all, Field.json, List.map_cons, List.map_nil, Json.floats,
    Json.memberFloats] at htypes hinstructions ⊢
  rw [htypes, hinstructions]
  rfl

/-- **A configuration that is accepted is shown as JSON exactly if both ends of the range of floats are finite.** -/
theorem isText_executeCheck_iff (i : Invocation) {content : String} {o : Options} (h : Options.ofFile content = .ok o) :
    IsText (executeCheck i content true).output.toList ↔
      Number.isFinite o.maxFloat = true ∧ Number.isFinite o.minFloat = true := by
  have hvalid : o.problems = [] := (Options.ofLines_eq_ok_iff.1 h).2.2
  have hprobability : Number.isFinite o.nameProbability = true := by
    have hkept := Configuration.problems_eq_nil_iff.1 hvalid .nameProbability
    rw [Configuration.Rule.nameProbability_broken_iff, not_not] at hkept
    exact Number.isFinite_of_unit hkept.1 hkept.2
  have houtput : (executeCheck i content true).output = printed [o.json.text] := by rw [executeCheck, h]; rfl
  rw [houtput, isText_printed_iff, floats_options]
  simp [hprobability]

/-! ## Commands -/

def Request.json : Request → Bool
  | .run r         => r.json
  | .parse r       => r.json
  | .checkConfig r => r.json

/-- The program text that a run is asked for, in one of two ways. -/
def RunRequest.text? (files : Files) (r : RunRequest) : Option String :=
  match r.program, r.source with
  | some path, none      => some (programText ((files path).getD ""))
  | none,      some text => some text
  | _,         _         => none

/-- **The requests that are not refused**: the program can be parsed and the configuration read. -/
inductive Accepts (files : Files) : Request → Prop
  | run {r : RunRequest} {text : String} {t : Tree} (htext : r.text? files = some text)
      (hconfig : ∀ path, r.config = some path → ∃ o, Options.ofFile ((files path).getD "") = .ok o)
      (hparse : Tree.parse text = .ok t) : Accepts files (.run r)
  | parse {r : FileRequest} {t : Tree} (hparse : Tree.parse (programText ((files r.path).getD "")) = .ok t) :
      Accepts files (.parse r)
  | checkConfig {r : FileRequest} {o : Options} (hconfig : Options.ofFile ((files r.path).getD "") = .ok o) :
      Accepts files (.checkConfig r)

theorem isText_runProgram {i : Invocation} {r : RunRequest} {read : List Log.Record} {o : Options} {text : String}
    {t : Tree} {result : Result} (hjson : r.json = true) (hparse : Tree.parse text = .ok t)
    (h : runProgram i r read o text = .ok result) : IsText result.output.toList := by
  unfold runProgram at h
  rw [hparse] at h
  dsimp only at h
  split at h
  · cases h
  · cases h
    rw [hjson]
    exact (isText_printed_iff _).2 (finite_runJson o _ _)

theorem executeRun_of_text? {files : Files} {r : RunRequest} {text : String} (h : r.text? files = some text)
    (i : Invocation) : executeRun files i r = match r.config with
      | none      => runProgram i r [] (r.override {}) text
      | some path =>
        match Options.ofFile ((files path).getD "") with
        | .error e => .ok (failed "" ("invalid configuration: " ++ e.message))
        | .ok o    => runProgram i r (Log.ofReading o) (r.override o) text := by
  unfold RunRequest.text? at h
  unfold executeRun
  cases hprogram : r.program with
  | none =>
    cases hsource : r.source with
    | none =>
      rw [hprogram, hsource] at h
      cases h
    | some source =>
      rw [hprogram, hsource] at h
      cases h
      rfl
  | some path =>
    cases hsource : r.source with
    | none =>
      rw [hprogram, hsource] at h
      cases h
      rfl
    | some source =>
      rw [hprogram, hsource] at h
      cases h

theorem isText_executeRun {files : Files} {i : Invocation} {r : RunRequest} {text : String} {t : Tree} {result : Result}
    (hjson : r.json = true) (htext : r.text? files = some text)
    (hconfig : ∀ path, r.config = some path → ∃ o, Options.ofFile ((files path).getD "") = .ok o)
    (hparse : Tree.parse text = .ok t) (h : executeRun files i r = .ok result) : IsText result.output.toList := by
  rw [executeRun_of_text? htext] at h
  cases hpath : r.config with
  | none =>
    rw [hpath] at h
    exact isText_runProgram hjson hparse h
  | some path =>
    obtain ⟨o, ho⟩ := hconfig path hpath
    simp only [hpath, ho] at h
    exact isText_runProgram hjson hparse h

theorem isText_executeParse {content : String} {t : Tree} (h : Tree.parse (programText content) = .ok t) :
    IsText (executeParse content true).output.toList := by
  rw [executeParse, h]
  refine (isText_printed_iff _).2 fun x hx => ?_
  cases hx

/-- **What a command prints as a document is JSON**, but for a configuration with an infinite end of the range of
floats. -/
theorem isText_output_iff {files : Files} {i : Invocation} {result : Result} (h : execute files i = .ok result)
    (hjson : i.request.json = true) (haccepts : Accepts files i.request) :
    IsText result.output.toList ↔ ∀ r o, i.request = .checkConfig r → Options.ofFile ((files r.path).getD "") = .ok o →
      Number.isFinite o.maxFloat = true ∧ Number.isFinite o.minFloat = true := by
  unfold execute at h
  split at h
  · cases h
  generalize i.request = request at h hjson haccepts
  cases haccepts with
  | run htext hconfig hparse =>
    exact iff_of_true (isText_executeRun hjson htext hconfig hparse h) fun _ _ heq => nomatch heq
  | @parse r t hparse =>
    have hflag : r.json = true := hjson
    dsimp only at h
    rw [hflag] at h
    cases h
    exact iff_of_true (isText_executeParse hparse) fun _ _ heq => nomatch heq
  | @checkConfig r o hconfig =>
    have hflag : r.json = true := hjson
    dsimp only at h
    rw [hflag] at h
    cases h
    rw [isText_executeCheck_iff i hconfig]
    constructor
    · rintro hfinite r' o' heq ho'
      cases heq
      rw [hconfig] at ho'
      cases ho'
      exact hfinite
    · exact fun hall => hall r o rfl hconfig

theorem isText_output_parse :
    execute (fun _ => some "(a 1)") { request := .parse { path := "a.push", json := true } } =
      .ok (executeParse "(a 1)" true) ∧ IsText (executeParse "(a 1)" true).output.toList := by
  have h : execute (fun _ => some "(a 1)") { request := .parse { path := "a.push", json := true } } =
    .ok (executeParse "(a 1)" true) := rfl
  have hparse : Tree.parse (programText "(a 1)") = .ok (.list [.atom "a", .atom "1"]) := rfl
  exact ⟨h, (isText_output_iff h rfl (.parse hparse)).2 fun _ _ heq => nomatch heq⟩

/-- An infinite end of the range is accepted, and is shown as a word that JSON does not have. -/
theorem not_isText_output_infinity :
    ∃ result, execute (fun _ => some "max-random-float inf\n")
        { request := .checkConfig { path := "c.cfg", json := true } } = .ok result ∧
      result.exit = 0 ∧ ¬ IsText result.output.toList := by
  have hconfig : Options.ofFile "max-random-float inf\n" = .ok { maxFloat := Number.infinity false } := rfl
  refine ⟨executeCheck _ "max-random-float inf\n" true, rfl, ?_, fun htext => ?_⟩
  · rw [executeCheck, hconfig]
  · exact absurd ((isText_executeCheck_iff _ hconfig).1 htext).1 (by decide)

end Command
end PushMachine
