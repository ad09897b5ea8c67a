import Mathlib.Logic.Function.Iterate
import PushMachine.Proofs.Literal
import PushMachine.Proofs.Nesting
import PushMachine.Proofs.Running
/-!
# Counted loops

`exec.do*range` makes one turn and leaves the rest of its loop on EXEC as a list that refers to `exec.do*range` again.
A body that acts in the same way whatever is below it on EXEC (`Acts`) does so in each turn, so by induction on the
distance of the two indices the loop does what the turns do one after the other (`ranges`).  The other two instructions
put such a loop together (`doCount_doTimes_reach`).
-/
namespace PushMachine

variable {ρ : Type}

/-! ## Indices -/

namespace ExecOp

/-- **The indices of a loop**: from the first, one at a time towards the last, both included. -/
def indices (first last : Int) : List Int :=
  (List.range ((first - last).natAbs + 1)).map fun k : Nat => if first ≤ last then first + k else first - k

theorem length_indices (first last : Int) : (indices first last).length = (first - last).natAbs + 1 := by
  rw [indices, List.length_map, List.length_range]

theorem indices_self (n : Int) : indices n n = [n] := by simp [indices]

theorem natAbs_nearer {first last : Int} (h : first ≠ last) :
    (first - last).natAbs = (nearer first last - last).natAbs + 1 := by
  unfold nearer
  split <;> omega

theorem indices_of_ne {first last : Int} (h : first ≠ last) :
    indices first last = first :: indices (nearer first last) last := by
  rw [indices, natAbs_nearer h, List.range_succ_eq_map, List.map_cons, List.map_map, indices]
  congr 1
  · split <;> simp
  · refine List.map_congr_left fun k hk => ?_
    rw [List.mem_range] at hk
    simp only [Function.comp, Nat.succ_eq_add_one, nearer] at hk ⊢
    split <;> split at hk <;> split <;> omega

theorem indices_zero {n : Int} (h : 1 ≤ n) : indices 0 (n - 1) = (List.range n.toNat).map Int.ofNat := by
  have hlength : (0 - (n - 1)).natAbs + 1 = n.toNat := by omega
  rw [indices, hlength]
  refine List.map_congr_left fun k _ => ?_
  rw [if_pos (by omega), Int.zero_add]
  rfl

theorem inInt64_nearer {first last : Int} (h : first ≠ last) (hf : Number.inInt64 first = true)
    (hl : Number.inInt64 last = true) : Number.inInt64 (nearer first last) = true := by
  rw [Number.inInt64_iff] at hf hl ⊢
  unfold nearer
  split <;> omega

theorem points_rangeLoop (first last : Int) (body : Tree) : (rangeLoop first last body).points = body.points + 4 := by
  simp only [rangeLoop, Tree.integer, rangeToken, Tree.points_list, Tree.pointsAll_cons, Tree.points_atom,
    Tree.pointsAll_nil]
  omega

/-! ## One turn -/

section Turn

variable {m : Machine ρ} {o : Options} {first last : Int} {integers : Stack Int} {body : Tree} {rest : Stack Tree}

theorem range_of_eq (hi : m.integer = last :: last :: integers) (he : m.exec = body :: rest) :
    range o m = .next { m with integer := last :: integers, exec := body :: rest } := by
  simp only [range, hi, he, if_true]

theorem range_of_ne (hne : first ≠ last) (hf : Number.inInt64 first = true) (hl : Number.inInt64 last = true)
    (hfits : o.fits (rangeLoop (nearer first last) last body) = true)
    (hi : m.integer = last :: first :: integers) (he : m.exec = body :: rest) :
    range o m = .next
      { m with integer := first :: integers, exec := body :: rangeLoop (nearer first last) last body :: rest } := by
  have hbuilt := buildLoop_of_writable (Number.isWritable_of_inInt64 (inInt64_nearer hne hf hl))
    (Number.isWritable_of_inInt64 hl) body
  unfold nearer at hfits hbuilt ⊢
  simp only [range, hi, he, hne, hbuilt, hfits, if_true, if_false]

theorem countWith_of_fits {wrapBody : Tree → Tree} {n : Int} (hpos : 1 ≤ n) (hn : Number.inInt64 n = true)
    (hfits : o.fits (rangeLoop 0 (n - 1) (wrapBody body)) = true) (hi : m.integer = n :: integers)
    (he : m.exec = body :: rest) :
    countWith o wrapBody m
      = .next { m with integer := integers, exec := rangeLoop 0 (n - 1) (wrapBody body) :: rest } := by
  have hlast : Number.inInt64 (n - 1) = true := by
    rw [Number.inInt64_iff] at hn ⊢
    omega
  have hbuilt := buildLoop_of_writable (Number.isWritable_of_inInt64 (n := 0) (by decide))
    (Number.isWritable_of_inInt64 hlast) (wrapBody body)
  simp only [countWith, hi, he, hbuilt, hfits, Int.not_lt.2 hpos, if_true, if_false]

end Turn

end ExecOp

open ExecOp (indices nearer rangeLoop rangeToken dropIndexToken withoutIndex)

theorem Options.instruction?_rangeToken {o : Options} (h : o.allows (.exec .doRange) = true) :
    o.instruction? rangeToken = some (.exec .doRange) :=
  o.instruction?_token h rfl rfl

theorem Options.instruction?_dropIndexToken {o : Options} (h : o.allows (.stack .integer .pop) = true) :
    o.instruction? dropIndexToken = some (.stack .integer .pop) :=
  o.instruction?_token h rfl rfl

namespace Machine

/-! ## Acting in the same way whatever is left to execute -/

/-- Everything but the items to execute and the count of steps. -/
def data (m : Machine ρ) : Machine ρ := m.place [] 0

def pushInteger (m : Machine ρ) (n : Int) : Machine ρ := { m with integer := n :: m.integer }

/-- **One turn for each index**: push it, then do `f`. -/
def turns (f : Machine ρ → Machine ρ) (is : List Int) (d : Machine ρ) : Machine ρ :=
  is.foldl (fun d i => f (d.pushInteger i)) d

variable [RandomSource ρ]

/-- **Finitely many steps, none of which stops the evaluation, lead to these items and these data.** -/
def Reaches (o : Options) (m : Machine ρ) (rest : Stack Tree) (d : Machine ρ) : Prop :=
  ∃ n m', after? o n m = some m' ∧ m'.exec = rest ∧ m'.data = d

/-- No step leads out of a class of machines. -/
def Closed (o : Options) (P : Machine ρ → Prop) : Prop := ∀ m m', P m → m.step o = some (.next m') → P m'

/-- **Trees act as `f`** on a class of machines: executed in turn, whatever is below them on EXEC, they come to an end
there without stopping the evaluation, and `f` says what becomes of the data. -/
def Acts (o : Options) (P : Machine ρ → Prop) (ts : List Tree) (f : Machine ρ → Machine ρ) : Prop :=
  ∀ m rest, P m → m.exec = ts ++ rest → m.Reaches o rest (f m.data)

variable {o : Options} {P : Machine ρ → Prop} {m m₁ : Machine ρ} {rest rest' : Stack Tree} {d d' : Machine ρ}

theorem Reaches.step (hs : m.step o = some (.next m₁)) (h : m₁.Reaches o rest d) : m.Reaches o rest d := by
  obtain ⟨n, m', hafter, hend⟩ := h
  exact ⟨n + 1, m', by rw [after?_of_step hs, hafter], hend⟩

theorem Closed.after? (hP : Closed o P) : ∀ {n : Nat} {m m' : Machine ρ}, P m → after? o n m = some m' → P m'
  | 0,     m, _, hm, h => by cases h; exact hm
  | n + 1, m, _, hm, h => by
    obtain ⟨m₁, hs, h₁⟩ := step_of_after? h
    exact hP.after? (hP m m₁ hm hs) h₁

theorem Reaches.trans (hP : Closed o P) (hm : P m) (h : m.Reaches o rest d)
    (h' : ∀ m', P m' → m'.exec = rest → m'.data = d → m'.Reaches o rest' d') : m.Reaches o rest' d' := by
  obtain ⟨n, m₁, hafter, he, hd⟩ := h
  obtain ⟨k, m₂, hafter', hend⟩ := h' m₁ (hP.after? hm hafter) he hd
  exact ⟨n + k, m₂, by rw [after?_add k hafter, hafter'], hend⟩

section Acts

variable {ts us : List Tree} {f g : Machine ρ → Machine ρ}

theorem Acts.append (hP : Closed o P) (h : Acts o P ts f) (h' : Acts o P us g) :
    Acts o P (ts ++ us) fun d => g (f d) := by
  intro m rest hm he
  rw [List.append_assoc] at he
  refine (h m (us ++ rest) hm he).trans hP hm fun m' hm' he' hd => ?_
  have hrest := h' m' rest hm' he'
  rwa [hd] at hrest

/-- Opening a list costs a step. -/
theorem Acts.list (hP : Closed o P) (h : Acts o P ts f) : Acts o P [.list ts] f := by
  intro m rest hm he
  have hs : m.step o = some (.next { m with exec := ts ++ rest, steps := m.steps + 1 }) := step_of_exec he
  exact .step hs (h _ rest (hP m _ hm hs) rfl)

theorem acts_integer {n : Int} (hn : Number.inInt64 n = true) (hi : o.enables .integer = true) :
    Acts o P [Tree.integer n] (·.pushInteger n) := by
  intro m rest _ he
  have hs : m.step o = some (.next ((m.popped rest).pushInteger n)) := by
    rw [step_of_exec he, Tree.integer, execute, Token.classify_repr hn]
    simp only [pushEnabled, hi, if_true]
    rfl
  exact .step hs ⟨0, _, rfl, rfl, rfl⟩

/-- An instruction of another stack than EXEC and CODE acts by itself, as long as it does not fail. -/
theorem acts_of_instruction {t : Tree} {i : Instruction} (hi : o.instruction? t = some i) (he : i.kind ≠ .exec)
    (hc : i.kind ≠ .code) (hrun : ∀ m : Machine ρ, ∃ m', i.run o m = .next m') :
    Acts o P [t] fun d => (i.run o d).machine := by
  intro m rest _ hexec
  obtain ⟨m', hm'⟩ := hrun m.data
  have hplace : i.run o (m.popped rest) = .next (m'.place rest (m.steps + 1)) := by
    have h := i.run_place o m.data he hc rest (m.steps + 1)
    rw [hm'] at h
    exact h
  have hidle : m'.data = m' := by
    have h := i.run_place o m.data he hc [] 0
    rw [show m.data.place [] 0 = m.data from rfl, hm'] at h
    exact (Outcome.next.inj h).symm
  refine .step (step_of_instruction hexec hi hplace) ⟨0, _, rfl, rfl, ?_⟩
  show m'.data = (i.run o m.data).machine
  rw [hidle, hm']
  rfl

theorem acts_dropIndexToken (h : o.allows (.stack .integer .pop) = true) :
    Acts o P [dropIndexToken] fun d => { d with integer := d.integer.tail } :=
  acts_of_instruction (Options.instruction?_dropIndexToken h) (by decide) (by decide) fun _ => ⟨_, rfl⟩

end Acts

/-! ## The loop -/

section Loop

variable {body : Tree} {f : Machine ρ → Machine ρ} {first last : Int} {integers : Stack Int}

/-- The list that a turn leaves behind pushes the two indices and comes to `exec.do*range` again. -/
theorem reaches_of_rangeLoop (hP : Closed o P) (hi : o.enables .integer = true) (hf : Number.inInt64 first = true)
    (hl : Number.inInt64 last = true) (hm : P m) (he : m.exec = rangeLoop first last body :: rest) :
    m.Reaches o (rangeToken :: body :: rest) ((m.data.pushInteger first).pushInteger last) := by
  have hpush : Acts o P [Tree.integer first, Tree.integer last] fun d => (d.pushInteger first).pushInteger last :=
    (acts_integer hf hi).append hP (acts_integer hl hi)
  have hs : m.step o = some (.next { m with
      exec := [Tree.integer first, Tree.integer last] ++ rangeToken :: body :: rest, steps := m.steps + 1 }) :=
    step_of_exec he
  exact .step hs (hpush _ (rangeToken :: body :: rest) (hP m _ hm hs) rfl)

/-- **On top of the body, `exec.do*range` makes one turn for each index** from `first` to `last`. -/
def Ranges (o : Options) (P : Machine ρ → Prop) (body : Tree) (f : Machine ρ → Machine ρ) (first last : Int) : Prop :=
  ∀ m rest integers, P m → m.NextRuns o (.exec .doRange) → m.exec.tail = body :: rest →
    m.integer = last :: first :: integers →
      m.Reaches o rest (turns f (indices first last) { m.data with integer := integers })

/-- Then the list that starts the loop makes them too. -/
theorem Ranges.acts (h : Ranges o P body f first last) (hP : Closed o P) (hi : o.enables .integer = true)
    (ha : o.allows (.exec .doRange) = true) (hf : Number.inInt64 first = true) (hl : Number.inInt64 last = true) :
    Acts o P [rangeLoop first last body] (turns f (indices first last)) := by
  intro m rest hm he
  refine (reaches_of_rangeLoop hP hi hf hl hm he).trans hP hm fun m' hm' he' hd => ?_
  have hruns : m'.NextRuns o (.exec .doRange) := nextRuns_iff.2 ⟨_, _, he', Options.instruction?_rangeToken ha⟩
  have hint : m'.integer = last :: first :: m.data.integer := congrArg (fun d : Machine ρ => d.integer) hd
  have hdata : { m'.data with integer := m.data.integer } = m.data := by
    rw [hd]
    rfl
  have hturns := h m' rest _ hm' hruns (by rw [he']; rfl) hint
  rwa [hdata] at hturns

theorem ranges_self (hP : Closed o P) (hbody : Acts o P [body] f) (n : Int) : Ranges o P body f n n := by
  intro m rest integers hm hruns htail hint
  let m₁ := { m.popped (body :: rest) with integer := n :: integers }
  have hs : m.step o = some (.next m₁) :=
    step_of_nextRuns hruns htail (ExecOp.range_of_eq (m := m.popped _) hint rfl)
  rw [ExecOp.indices_self]
  exact .step hs (hbody m₁ rest (hP m m₁ hm hs) rfl)

/-- A turn runs the body with its index, and below it is the rest of the loop, which starts from the data that the body has
left. -/
theorem Ranges.of_nearer (hP : Closed o P) (hi : o.enables .integer = true) (ha : o.allows (.exec .doRange) = true)
    (hbody : Acts o P [body] f) (hf : Number.inInt64 first = true) (hl : Number.inInt64 last = true)
    (hne : first ≠ last) (hfits : body.points + 4 ≤ o.programPoints) (h : Ranges o P body f (nearer first last) last) :
    Ranges o P body f first last := by
  intro m rest integers hm hruns htail hint
  let loop := rangeLoop (nearer first last) last body
  have hloop : o.fits loop = true := by
    rw [Options.fits, ExecOp.points_rangeLoop]
    exact decide_eq_true hfits
  let m₁ := { m.popped (body :: loop :: rest) with integer := first :: integers }
  have hs : m.step o = some (.next m₁) :=
    step_of_nextRuns hruns htail (ExecOp.range_of_ne (m := m.popped _) hne hf hl hloop hint rfl)
  have hturns : Acts o P ([body] ++ [loop]) fun d => turns f (indices (nearer first last) last) (f d) :=
    hbody.append hP (h.acts hP hi ha (ExecOp.inInt64_nearer hne hf hl) hl)
  rw [ExecOp.indices_of_ne hne]
  exact .step hs (hturns m₁ rest (hP m m₁ hm hs) rfl)

/-- **A counted loop makes one turn for each index.**  The induction is on the distance of the two indices. -/
theorem ranges (hP : Closed o P) (hi : o.enables .integer = true) (ha : o.allows (.exec .doRange) = true)
    (hbody : Acts o P [body] f) (hl : Number.inInt64 last = true) :
    ∀ (n : Nat) {first : Int}, (first - last).natAbs = n → Number.inInt64 first = true →
      (first ≠ last → body.points + 4 ≤ o.programPoints) → Ranges o P body f first last
  | 0,     first, hn, _,  _     => by
    obtain rfl : first = last := by omega
    exact ranges_self hP hbody first
  | n + 1, first, hn, hf, hfits => by
    have hne : first ≠ last := by
      rintro rfl
      simp at hn
    have hdistance := ExecOp.natAbs_nearer hne
    have hnearer : Ranges o P body f (nearer first last) last :=
      ranges hP hi ha hbody hl n (by omega) (ExecOp.inInt64_nearer hne hf hl) fun _ => hfits hne
    exact hnearer.of_nearer hP hi ha hbody hf hl hne (hfits hne)

/-- **`exec.do*range` is a counted loop.**  Let a body act as `f` on a class of machines that no step leaves, and let a
loop around it fit unless it has one turn only.  On top of the body, with the last index on top of the first on INTEGER,
the instruction comes to what is below the body, and for each index from the first to the last, both included, that index
was pushed and `f` was done: as often as the distance of the two and once more. -/
theorem doRange_reaches (hP : Closed o P) (hi : o.enables .integer = true) (hbody : Acts o P [body] f)
    (hf : Number.inInt64 first = true) (hl : Number.inInt64 last = true)
    (hfits : first ≠ last → body.points + 4 ≤ o.programPoints) (hm : P m) (hruns : m.NextRuns o (.exec .doRange))
    (he : m.exec.tail = body :: rest) (hint : m.integer = last :: first :: integers) :
    m.Reaches o rest (turns f (indices first last) { m.data with integer := integers }) ∧
      (indices first last).length = (first - last).natAbs + 1 :=
  ⟨ranges hP hi hruns.allows hbody hl _ rfl hf hfits m rest integers hm hruns he hint, ExecOp.length_indices first last⟩

/-- The product of the numbers from five down to one, on top of a one. -/
theorem doRange_reaches_factorial :
    let m := { initial (Twister.ofSeed 0) with
      exec := [.atom "Exec.Do*Range", .atom "integer.*", .atom "x"], integer := [1, 5, 1] }
    let f : Machine Twister → Machine Twister := fun d => ((Instruction.integer .mul).run {} d).machine
    Acts {} (fun _ => True) [.atom "integer.*"] f ∧ m.NextRuns {} (.exec .doRange) ∧
      m.Reaches {} [.atom "x"] { m.data with integer := [120] } := by
  intro m f
  have hbody : Acts {} (fun _ => True) [.atom "integer.*"] f :=
    acts_of_instruction rfl (by decide) (by decide) fun _ => ⟨_, rfl⟩
  have hruns : m.NextRuns {} (.exec .doRange) := nextRuns_iff.2 ⟨_, _, rfl, rfl⟩
  exact ⟨hbody, hruns, (doRange_reaches (fun _ _ _ _ => trivial) rfl hbody (by decide) (by decide)
    (by decide +kernel) trivial hruns rfl rfl).1⟩

/-! ## Loops over the indices below a number -/

/-- A counted loop that is put together around a body makes its turns with the indices below the number. -/
theorem reaches_of_countWith (hP : Closed o P) (hi : o.enables .integer = true) (ha : o.allows (.exec .doRange) = true)
    {i : Instruction} {wrapBody : Tree → Tree}
    (hrun : ∀ m : Machine ρ, i.run o m = ExecOp.countWith o wrapBody m) {n : Int}
    (hn : Number.inInt64 n = true) (hpos : 1 ≤ n) (hm : P m) (hruns : m.NextRuns o i) (he : m.exec.tail = body :: rest)
    (hint : m.integer = n :: integers)
    (hfits : o.fits (rangeLoop 0 (n - 1) (wrapBody body)) = true) (hbody : Acts o P [wrapBody body] f) :
    m.Reaches o rest (turns f ((List.range n.toNat).map Int.ofNat) { m.data with integer := integers }) := by
  let m₁ := { m.popped (rangeLoop 0 (n - 1) (wrapBody body) :: rest) with integer := integers }
  have hs : m.step o = some (.next m₁) := by
    refine step_of_nextRuns hruns he ?_
    rw [hrun, ExecOp.countWith_of_fits (m := m.popped (body :: rest)) hpos hn hfits hint rfl]
    rfl
  have hlast : Number.inInt64 (n - 1) = true := by
    rw [Number.inInt64_iff] at hn ⊢
    omega
  rw [Options.fits, ExecOp.points_rangeLoop, decide_eq_true_eq] at hfits
  rw [← ExecOp.indices_zero hpos]
  have hturns : Acts o P [rangeLoop 0 (n - 1) (wrapBody body)] (turns f (indices 0 (n - 1))) :=
    (ranges hP hi ha hbody hlast _ rfl (by decide) fun _ => hfits).acts hP hi ha (by decide) hlast
  exact .step hs (hturns m₁ rest (hP m m₁ hm hs) rfl)

omit [RandomSource ρ] in
/-- Turns that drop their index at once are iterations. -/
theorem turns_dropping (f : Machine ρ → Machine ρ) : ∀ (is : List Int) (d : Machine ρ),
    turns (fun d => f { d with integer := d.integer.tail }) is d = f^[is.length] d
  | [],      _ => rfl
  | _ :: is, d => turns_dropping f is (f d)

/-- **`exec.do*count` and `exec.do*times` iterate as often as the number on INTEGER says.**  The first does `f` with each
index from zero on top of INTEGER, if the body acts as `f`; the second iterates `f`, with no index on INTEGER, if the
items of the body act as `f` one after the other.  The loop that they build has to fit. -/
theorem doCount_doTimes_reach (hP : Closed o P) (hi : o.enables .integer = true)
    (ha : o.allows (.exec .doRange) = true) {n : Int} (hn : Number.inInt64 n = true) (hpos : 1 ≤ n) (hm : P m)
    (he : m.exec.tail = body :: rest) (hint : m.integer = n :: integers) :
    (m.NextRuns o (.exec .doCount) → o.fits (rangeLoop 0 (n - 1) body) = true → Acts o P [body] f →
      m.Reaches o rest (turns f ((List.range n.toNat).map Int.ofNat) { m.data with integer := integers })) ∧
    (m.NextRuns o (.exec .doTimes) → o.allows (.stack .integer .pop) = true →
      o.fits (rangeLoop 0 (n - 1) (withoutIndex body)) = true → Acts o P body.items f →
        m.Reaches o rest (f^[n.toNat] { m.data with integer := integers })) := by
  constructor
  · intro hruns hfits hbody
    exact reaches_of_countWith hP hi ha (fun _ => rfl) hn hpos hm hruns he hint hfits hbody
  · intro hruns hpop hfits hbody
    have hwrapped : Acts o P [withoutIndex body] fun d => f { d with integer := d.integer.tail } :=
      ((acts_dropIndexToken hpop).append hP hbody).list hP
    have h := reaches_of_countWith hP hi ha (fun _ => rfl) hn hpos hm hruns he hint hfits hwrapped
    rwa [turns_dropping, List.length_map, List.length_range] at h

/-- The sum of the numbers below five, on top of a zero, and one doubled four times. -/
theorem doCount_doTimes_reach_sum :
    let count := { initial (Twister.ofSeed 0) with
      exec := [.atom "exec.do*count", .atom "integer.+"], integer := [5, 0] }
    let double := Tree.list [.atom "integer.dup", .atom "integer.+"]
    let times := { initial (Twister.ofSeed 0) with exec := [.atom "exec.do*times", double], integer := [4, 1] }
    count.NextRuns {} (.exec .doCount) ∧ count.Reaches {} [] { count.data with integer := [10] } ∧
      times.NextRuns {} (.exec .doTimes) ∧ times.Reaches {} [] { times.data with integer := [16] } := by
  intro count double times
  have hP : Closed {} fun _ : Machine Twister => True := fun _ _ _ _ => trivial
  have hplus : Acts {} (fun _ : Machine Twister => True) [.atom "integer.+"] _ :=
    acts_of_instruction (i := .integer .add) rfl (by decide) (by decide) fun _ => ⟨_, rfl⟩
  have hdup : Acts {} (fun _ : Machine Twister => True) [.atom "integer.dup"] _ :=
    acts_of_instruction (i := .stack .integer .dup) rfl (by decide) (by decide) fun _ => ⟨_, rfl⟩
  have hcount : count.NextRuns {} (.exec .doCount) := nextRuns_iff.2 ⟨_, _, rfl, rfl⟩
  have htimes : times.NextRuns {} (.exec .doTimes) := nextRuns_iff.2 ⟨_, _, rfl, rfl⟩
  have hdouble : Acts {} (fun _ : Machine Twister => True) double.items _ := hdup.append hP hplus
  exact ⟨hcount, (doCount_doTimes_reach hP rfl rfl (by decide) (by decide) trivial rfl rfl).1 hcount
      (by decide +kernel) hplus,
    htimes, (doCount_doTimes_reach hP rfl rfl (by decide) (by decide) trivial rfl rfl).2 htimes rfl
      (by decide +kernel) hdouble⟩

end Loop

end Machine
end PushMachine
