import PushMachine.Proofs.FloatRange
import PushMachine.Proofs.Lexical
/-!
# How a step fails

A step fails if the next item is a token that cannot be read, or an instruction that fails (`Machine.step_eq_fault_iff`).
Instructions fail that find no float for an integer, no text for one that they turn into code, or no new name to draw.
Every other item can be turned into code, because everything in a session is spelled right.
-/
namespace PushMachine

variable {ρ : Type} [RandomSource ρ]

/-- **How an instruction fails.** -/
inductive Instruction.Fails (o : Options) (m : Machine ρ) : Instruction → Fault → Prop
  | conversion {n : Int} : n ∈ m.integer.head? → 2 ^ 1024 - 2 ^ 970 ≤ n.natAbs →
      Fails o m (.float .fromInteger) .integerTooLarge
  | binding {n : Int} : m.name ≠ [] → n ∈ m.integer.head? → Number.isWritable n = false →
      Fails o m (.stack .integer .define) .integerTooLong
  | quotation {n : Int} : n ∈ m.integer.head? → Number.isWritable n = false →
      Fails o m (.code .fromInteger) .integerTooLong
  | range {last current : Int} {integers : Stack Int} : m.integer = last :: current :: integers → m.exec ≠ [] →
      current ≠ last → (Number.isWritable (ExecOp.nearer current last) && Number.isWritable last) = false →
      Fails o m (.exec .doRange) .integerTooLong
  | count {op : ExecOp} {n : Int} : op = .doCount ∨ op = .doTimes → n ∈ m.integer.head? → m.exec ≠ [] → 1 ≤ n →
      Number.isWritable (n - 1) = false → Fails o m (.exec op) .integerTooLong
  | newName : (Supply.newName m.supply).1 = .error .namesExhausted → Fails o m (.name .rand) .namesExhausted
  | newCode {n : Int} {f : Fault} : n ∈ m.integer.head? → 1 ≤ CodeOp.randomLimit o n →
      f = .namesExhausted ∨ f = .integerTooLong →
      (RandomCode.upTo o (CodeOp.randomLimit o n) m.supply).1 = .error f → Fails o m (.code .rand) f

/-- **How a step fails.** -/
inductive Machine.Fails (o : Options) (m : Machine ρ) : Fault → Prop
  | digits {token : String} {rest : Stack Tree} {count : Nat} : m.exec = .atom token :: rest →
      Token.TooLong token count → Fails o m (.tooManyDigits count)
  | infinity {token : String} {rest : Stack Tree} : m.exec = .atom token :: rest →
      Token.OddInfinity token → Fails o m (.unreadableFloat token)
  | instruction {i : Instruction} {f : Fault} : m.NextRuns o i → i.Fails o (m.popped m.exec.tail) f → Fails o m f

variable {o : Options} {m m' : Machine ρ} {f : Fault}

/-! ## Instructions -/

omit [RandomSource ρ] in
theorem StackOp.defineTop_eq_stop_iff (h : m.Spelled) (k : Kind) :
    (∃ m', defineTop k m = .stop f m') ↔
      k = .integer ∧ m.name ≠ [] ∧ ∃ n ∈ m.integer.head?, Number.isWritable n = false ∧ .integerTooLong = f := by
  constructor
  · rintro ⟨m', hstop⟩
    unfold defineTop at hstop
    split at hstop
    · cases hstop
    · rename_i key names hn
      have hspelled : (m.setStack .name names).Every Kind.Spelled := h.items.pop (k := .name) hn
      dsimp only at hstop
      split at hstop
      · cases hstop
      · rename_i x xs hx
        split at hstop
        · cases hstop
        · rename_i e he
          have hx : (m.setStack .name names).stack k = x :: xs := hx
          obtain ⟨hw, rfl⟩ := (Tree.ofItem_eq_error_iff (hspelled k x (by rw [hx]; exact List.mem_cons_self))).1 he
          cases hstop
          obtain rfl : k = .integer := Kind.eq_integer_of_writes hw
          have hi : m.integer = x :: xs := hx
          exact ⟨rfl, by rw [hn]; exact List.cons_ne_nil _ _, x, by rw [hi]; rfl, hw, rfl⟩
  · rintro ⟨rfl, hn, n, hx, hw, rfl⟩
    obtain ⟨key, names, hn⟩ := List.exists_cons_of_ne_nil hn
    obtain ⟨integers, hi⟩ := List.head?_eq_some_iff.1 hx
    have hstack : ({ m with name := names } : Machine ρ).stack .integer = n :: integers := hi
    refine ⟨({ m with name := names } : Machine ρ).setStack .integer integers, ?_⟩
    simp only [defineTop, hn, hstack, Tree.ofItem, Tree.ofInteger_of_not_writable hw]

omit [RandomSource ρ] in
/-- Turning the top item of a stack into code fails as writing it does. -/
theorem CodeOp.ofStack_eq_stop_iff (h : m.Spelled) (k : Kind) :
    (∃ m', ofStack k m = .stop f m') ↔ ∃ x ∈ (m.stack k).head?, k.writes x = false ∧ .integerTooLong = f := by
  constructor
  · rintro ⟨m', hstop⟩
    unfold ofStack at hstop
    split at hstop
    · cases hstop
    · rename_i x xs hx
      have hmem : x ∈ (m.stack k).head? := by rw [hx]; rfl
      dsimp only at hstop
      split at hstop
      · cases hstop
      · rename_i e he
        cases hstop
        exact ⟨x, hmem, (Tree.ofItem_eq_error_iff (h.items k x (List.mem_of_mem_head? hmem))).1 he⟩
  · rintro ⟨x, hx, hw⟩
    obtain ⟨xs, hs⟩ := List.head?_eq_some_iff.1 hx
    have hcode := (Tree.ofItem_eq_error_iff (h.items k x (List.mem_of_mem_head? hx))).2 hw
    exact ⟨m.setStack k xs, by simp only [ofStack, hs, hcode]⟩

namespace ExecOp

theorem range_eq_stop_iff : (∃ m', range o m = .stop f m') ↔ (Instruction.exec .doRange).Fails o m f := by
  constructor
  · rintro ⟨m', hstop⟩
    unfold range at hstop
    split at hstop
    · rename_i last current integers body rest hi he
      split at hstop
      · cases hstop
      · rename_i hne
        split at hstop
        · rename_i e hbuilt
          cases hstop
          obtain ⟨hw, rfl⟩ := buildLoop_eq_error_iff.1 hbuilt
          exact .range hi (by rw [he]; exact List.cons_ne_nil _ _) hne hw
        · split at hstop <;> cases hstop
    · cases hstop
  · intro hf
    cases hf with
    | @range last current _ hi he hne hw =>
      obtain ⟨body, rest, he⟩ := List.exists_cons_of_ne_nil he
      have hbuilt : buildLoop (nearer current last) last body = .error .integerTooLong :=
        buildLoop_eq_error_iff.2 ⟨hw, rfl⟩
      unfold nearer at hbuilt
      exact ⟨m, by simp only [range, hi, he, if_neg hne, hbuilt]⟩
    | count hop => simp at hop

theorem countWith_eq_stop_iff {op : ExecOp} (hop : op = .doCount ∨ op = .doTimes) (wrapBody : Tree → Tree) :
    (∃ m', countWith o wrapBody m = .stop f m') ↔ (Instruction.exec op).Fails o m f := by
  have hzero : Number.isWritable 0 = true := by decide
  constructor
  · rintro ⟨m', hstop⟩
    unfold countWith at hstop
    split at hstop
    · rename_i n integers body rest hi he
      split at hstop
      · cases hstop
      · rename_i hn
        split at hstop
        · rename_i e hbuilt
          cases hstop
          obtain ⟨hw, rfl⟩ := buildLoop_eq_error_iff.1 hbuilt
          rw [hzero, Bool.true_and] at hw
          exact .count hop (by rw [hi]; rfl) (by rw [he]; exact List.cons_ne_nil _ _) (Int.not_lt.1 hn) hw
        · split at hstop <;> cases hstop
    · cases hstop
  · intro hf
    cases hf with
    | range => simp at hop
    | @count _ n _ hi he hpos hw =>
      obtain ⟨integers, hi⟩ := List.head?_eq_some_iff.1 hi
      obtain ⟨body, rest, he⟩ := List.exists_cons_of_ne_nil he
      have hbuilt : buildLoop 0 (n - 1) (wrapBody body) = .error .integerTooLong :=
        buildLoop_eq_error_iff.2 ⟨by rw [hzero, hw]; rfl, rfl⟩
      exact ⟨m, by simp only [countWith, hi, he, if_neg (Int.not_lt.2 hpos), hbuilt]⟩

end ExecOp

theorem FloatOp.ofInteger_eq_stop_iff :
    (∃ m', ofInteger m = .stop f m') ↔ (Instruction.float .fromInteger).Fails o m f := by
  constructor
  · rintro ⟨m', hstop⟩
    unfold ofInteger at hstop
    split at hstop
    · rename_i n rest hi
      split at hstop
      · cases hstop
      · rename_i hnone
        cases hstop
        exact .conversion (by rw [hi]; rfl) (Number.floatOfInt?_eq_none_iff.1 hnone)
    · cases hstop
  · intro hf
    cases hf with
    | @conversion n hn hbig =>
      obtain ⟨rest, hi⟩ := List.head?_eq_some_iff.1 hn
      have hnone := Number.floatOfInt?_eq_none_iff.2 hbig
      exact ⟨{ m with integer := rest }, by simp only [ofInteger, hi, hnone]⟩

theorem NameOp.newName_eq_stop_iff :
    (∃ m', newName m = .stop f m') ↔ (Instruction.name .rand).Fails o m f := by
  have hw := Supply.newName_left (E := (· = .namesExhausted)) rfl m.supply
  constructor
  · rintro ⟨m', hstop⟩
    unfold newName at hstop
    split at hstop
    · cases hstop
    · rename_i e supply hn
      rw [hn] at hw
      cases hstop
      obtain rfl := hw.fault f rfl
      exact .newName (by rw [hn])
  · intro hf
    cases hf with
    | newName hn =>
      unfold newName
      split
      · rename_i name supply hok
        rw [hok] at hn
        cases hn
      · rename_i e supply he
        rw [he] at hn
        cases hn
        exact ⟨_, rfl⟩

theorem CodeOp.random_eq_stop_iff (ha : o.allows (.code .rand) = true) :
    (∃ m', random o m = .stop f m') ↔ (Instruction.code .rand).Fails o m f := by
  have hne := Options.instructionTokens_ne_nil (by decide) ha
  constructor
  · rintro ⟨m', hstop⟩
    unfold random at hstop
    split at hstop
    · cases hstop
    · rename_i n integers hi
      split at hstop
      · cases hstop
      · rename_i hlimit
        have hleft := RandomCode.upTo_left (o := o) (randomLimit o n) m.supply
        split at hstop
        · cases hstop
        · rename_i e supply hr
          rw [hr] at hleft
          cases hstop
          -- the instruction itself is there to be drawn
          have hcause : f = .namesExhausted ∨ f = .integerTooLong := by
            cases hleft.fault f rfl with
            | exhausted => exact .inl rfl
            | tooLong => exact .inr rfl
            | empty hnone => exact absurd hnone hne
          exact .newCode (by rw [hi]; rfl) (by omega) hcause (by rw [hr])
  · intro hf
    cases hf with
    | @newCode n _ hn hlimit _ hr =>
      obtain ⟨integers, hi⟩ := List.head?_eq_some_iff.1 hn
      unfold random
      simp only [hi, if_neg (by omega : ¬ randomLimit o n < 1)]
      split
      · rename_i t supply hok
        rw [hok] at hr
        cases hr
      · rename_i e supply he
        rw [he] at hr
        cases hr
        exact ⟨_, rfl⟩

/-- **An instruction that is allowed fails in these ways only**, where everything is spelled right. -/
theorem Instruction.run_eq_stop_iff (h : m.Spelled) {i : Instruction} (ha : o.allows i = true) :
    (∃ m', i.run o m = .stop f m') ↔ i.Fails o m f := by
  -- the instructions that never stop
  have hnever : (∀ m', i.run o m ≠ .stop f m') → (∀ g, ¬ i.Fails o m g) →
      ((∃ m', i.run o m = .stop f m') ↔ i.Fails o m f) := fun hrun hf =>
    ⟨fun ⟨m', hs⟩ => absurd hs (hrun m'), fun hfails => absurd hfails (hf f)⟩
  cases i with
  | stack k op =>
    cases op with
    | define =>
      refine (StackOp.defineTop_eq_stop_iff h k).trans ⟨?_, fun hf => ?_⟩
      · rintro ⟨rfl, hn, n, hi, hw, rfl⟩
        exact .binding hn hi hw
      · cases hf with | binding hn hi hw => exact ⟨rfl, hn, _, hi, hw, rfl⟩
    | _ => exact hnever (fun m' hs => by cases hs) (fun g hg => by cases hg)
  | integer op => exact hnever (fun m' hs => by cases hs) (fun g hg => by cases hg)
  | boolean op => exact hnever (fun m' hs => by cases hs) (fun g hg => by cases hg)
  | exec op =>
    cases op with
    | doRange => exact ExecOp.range_eq_stop_iff
    | doCount => exact ExecOp.countWith_eq_stop_iff (.inl rfl) _
    | doTimes => exact ExecOp.countWith_eq_stop_iff (.inr rfl) _
    | choose | k | s | y =>
      exact hnever (fun m' hs => by cases hs) fun g hg => by
        cases hg with | count hop => simp at hop
  | float op =>
    cases op with
    | fromInteger => exact FloatOp.ofInteger_eq_stop_iff
    | _ => exact hnever (fun m' hs => by cases hs) (fun g hg => by cases hg)
  | name op =>
    cases op with
    | rand => exact NameOp.newName_eq_stop_iff
    | _ => exact hnever (fun m' hs => by cases hs) (fun g hg => by cases hg)
  | code op =>
    -- an item of another stack than INTEGER is never too long
    have hshort : ∀ {k : Kind}, k ≠ .integer → ∀ m', CodeOp.ofStack k m ≠ .stop f m' := fun hk m' hs => by
      obtain ⟨x, -, hw, -⟩ := (CodeOp.ofStack_eq_stop_iff h _).1 ⟨m', hs⟩
      exact hk (Kind.eq_integer_of_writes hw)
    cases op with
    | rand => exact CodeOp.random_eq_stop_iff ha
    | fromInteger =>
      refine (CodeOp.ofStack_eq_stop_iff h .integer).trans ⟨?_, fun hf => ?_⟩
      · rintro ⟨n, hn, hw, rfl⟩
        exact .quotation hn hw
      · cases hf with | quotation hn hw => exact ⟨_, hn, hw, rfl⟩
    | fromBoolean | fromFloat | fromName => exact hnever (hshort (by decide)) (fun g hg => by cases hg)
    | _ => exact hnever (fun m' hs => by cases hs) (fun g hg => by cases hg)

/-! ## Steps -/

namespace Machine

/-- **A step fails in these ways only**, where everything is spelled right. -/
theorem step_eq_fault_iff (h : m.Spelled) : (∃ m', m.step o = some (.stop (.fault f) m')) ↔ m.Fails o f := by
  constructor
  · rintro ⟨m', hs⟩
    cases he : m.exec with
    | nil => rw [step_eq_none_iff.2 he] at hs; cases hs
    | cons t rest =>
      rw [step_of_exec he, Option.some.injEq] at hs
      cases t with
      | list items => cases hs
      | atom token =>
        simp only [Machine.execute] at hs
        split at hs
        · rename_i g hc
          cases hs
          rcases Token.classify_eq_error_iff.1 hc with ⟨count, rfl, hlong⟩ | ⟨rfl, hodd⟩
          · exact .digits he hlong
          · exact .infinity he hodd
        · cases hs
        · cases hs
        · cases hs
        · cases hs
        · rename_i stack operation hc
          split at hs
          · cases hs
          · rename_i i hr
            have ha := (Options.resolve_eq_ok hr).2.2.2
            split at hs
            · cases hs
            · rename_i g m'' hrun
              cases hs
              have hf := (Instruction.run_eq_stop_iff (h.popped he) ha).1 ⟨_, hrun⟩
              exact .instruction ⟨token, stack, operation, rest, ⟨he, hc⟩, hr⟩ (by rw [he]; exact hf)
  · intro hf
    cases hf with
    | @digits token rest count he hlong =>
      have hc := Token.classify_eq_error_iff.2 (.inl ⟨count, rfl, hlong⟩)
      exact ⟨m.popped rest, by rw [step_of_exec he]; simp only [Machine.execute, hc, popped]⟩
    | @infinity token rest he hodd =>
      have hc := Token.classify_eq_error_iff.2 (.inr ⟨rfl, hodd⟩)
      exact ⟨m.popped rest, by rw [step_of_exec he]; simp only [Machine.execute, hc, popped]⟩
    | @instruction i _ hruns hfails =>
      obtain ⟨token, stack, operation, rest, ⟨he, hc⟩, hr⟩ := hruns
      have ha := (Options.resolve_eq_ok hr).2.2.2
      rw [he] at hfails
      obtain ⟨m', hrun⟩ := (Instruction.run_eq_stop_iff (h.popped he) ha).2 hfails
      refine ⟨m', ?_⟩
      rw [step_of_exec he]
      simp only [popped] at hrun
      simp only [Machine.execute, hc, hr, hrun]

end Machine
end PushMachine
