import Mathlib
import PushMachine.Proofs.FloatReading
import PushMachine.Proofs.Nesting
import PushMachine.Proofs.RoundTrip
import PushMachine.Proofs.Spelling
/-!
# Code that gives a value back

The code of a value is a token that means the value (`classify_of_ofItem`), and a token that means a value pushes it
(`execute_of_literal?`).  So writing a value as code, reading the text and executing it gives the value back.  For floats
this needs that a float is determined by its sign and its magnitude, and that only one is no number.
-/
namespace PushMachine

/-! ## Floats -/

namespace Number

open Float.Model.UnpackedFloat (unpackExponent unpackMantissa packedNaN unpackExponent_def unpackMantissa_def)

theorem ofMagnitude_magnitudeBits (x : Float) : ofMagnitude (isNegative x) (magnitudeBits x) = x := by
  have hlt := x.toBits.toNat_lt
  have hbits : magnitudeBits x + (if isNegative x then signBit else 0) = x.toBits.toNat := by
    simp only [magnitudeBits, isNegative, beq_iff_eq, signBit]
    split <;> omega
  rw [ofMagnitude, hbits, UInt64.ofNat_toNat, Float.ofBits_toBits]

/-- **Only one float is no number.** -/
theorem eq_nan_of_isNan {x : Float} (h : isNan x = true) : x = nan := by
  have hlt := x.toBits.toNat_lt
  rw [isNan, decide_eq_true_eq, magnitudeBits, infinityBits, hiddenBit, signBit] at h
  have hexponent : @unpackExponent .binary64 x.toBits.toBitVec = -1#11 := by
    rw [unpackExponent_def]
    apply BitVec.eq_of_toNat_eq
    rw [BitVec.extractLsb'_toNat, Nat.shiftRight_eq_div_pow, UInt64.toNat_toBitVec]
    show x.toBits.toNat / 2 ^ 52 % 2 ^ 11 = 2047
    omega
  have hmantissa : @unpackMantissa .binary64 x.toBits.toBitVec ≠ 0#52 := by
    rw [unpackMantissa_def]
    intro hzero
    have hzero := congrArg BitVec.toNat hzero
    rw [BitVec.extractLsb'_toNat, Nat.shiftRight_zero, UInt64.toNat_toBitVec] at hzero
    change x.toBits.toNat % 2 ^ 52 = 0 at hzero
    omega
  -- the encodings of what is no number are all made one
  have hbits : x.toBits = UInt64.ofBitVec (packedNaN .binary64) :=
    UInt64.toBitVec_inj.1 (x.toModel.valid.eq_packedNaN hexponent hmantissa)
  rw [← Float.ofBits_toBits x, hbits]
  rfl

end Number

theorem Token.classify_floatText_self (x : Float) : classify (Number.floatText x) = .ok (.float x) := by
  rw [classify_floatText]
  by_cases hnan : Number.isNan x = true
  · rw [if_pos hnan, Number.eq_nan_of_isNan hnan]
  · rw [if_neg hnan, Number.ofMagnitude_magnitudeBits]

/-! ## Literals -/

namespace Kind

/-- The meaning of a token that pushes an item.  No token means a tree. -/
def literal? : (k : Kind) → k.Item → Option Token
  | .integer, n => some (.integer n)
  | .float,   x => some (.float x)
  | .boolean, b => some (.boolean b)
  | .name,    s => some (.name s)
  | .exec,    _ => none
  | .code,    _ => none

/-- **The values that have code**: the integers of 64 bits, all floats and booleans, and the names that are tokens of
themselves. -/
def Codable : (k : Kind) → k.Item → Prop
  | .integer, n => Number.inInt64 n = true
  | .float,   _ => True
  | .boolean, _ => True
  | .name,    s => Tree.isToken s = true ∧ Token.classify s = .ok (.name s)
  | .exec,    _ => False
  | .code,    _ => False

end Kind

/-- **The code of a value is a token that means the value.** -/
theorem Token.classify_of_ofItem {k : Kind} {v : k.Item} (h : k.Codable v) :
    ∃ token meaning, Tree.ofItem k v = .ok (.atom token) ∧ Tree.isToken token = true ∧
      classify token = .ok meaning ∧ k.literal? v = some meaning := by
  cases k with
  | integer =>
    have hcode := Tree.ofInteger_of_writable (Number.isWritable_of_inInt64 h)
    exact ⟨_, _, hcode, Number.isToken_repr v, classify_repr h, rfl⟩
  | float => exact ⟨_, _, rfl, Number.isToken_floatText v, classify_floatText_self v, rfl⟩
  | boolean =>
    cases v with
    | true => exact ⟨_, .boolean true, rfl, by decide, rfl, rfl⟩
    | false => exact ⟨_, .boolean false, rfl, by decide, rfl, rfl⟩
  | name =>
    obtain ⟨htoken, hname⟩ := h
    exact ⟨v, _, Tree.ofToken_of_isToken htoken, htoken, hname, rfl⟩
  | exec => cases h
  | code => cases h

namespace Machine

variable {ρ : Type} {o : Options} {m : Machine ρ}

/-- No tree takes the place of the item: it is no name, or the next name is protected, or the name is not bound. -/
def Keeps (m : Machine ρ) : (k : Kind) → k.Item → Prop
  | .name, s => m.quoting = true ∨ m.bindings.lookup s = none
  | _,     _ => True

/-- An item on top of its stack.  A name is protected no longer. -/
def pushed (m : Machine ρ) (k : Kind) (v : k.Item) : Machine ρ :=
  { m with quoting := if k = Kind.name then false else m.quoting }.setStack k (v :: m.stack k)

theorem executeName_of_keeps {name : String} (he : o.enables .name = true) (hk : m.Keeps .name name) :
    m.executeName o name = m.pushed .name name := by
  cases hq : m.quoting with
  | true =>
    rw [executeName_of_quoting hq, pushEnabled, if_pos he]
    rfl
  | false =>
    have hl : m.bindings.lookup name = none := hk.resolve_left (by rw [hq]; exact Bool.false_ne_true)
    rw [executeName_of_unbound hq hl, pushEnabled, if_pos he, pushed, if_pos rfl, ← hq]

variable [RandomSource ρ]

/-- **A token that means a value pushes it.** -/
theorem execute_of_literal? {token : String} {meaning : Token} {k : Kind} {v : k.Item}
    (hc : Token.classify token = .ok meaning) (hl : k.literal? v = some meaning) (he : o.enables k = true)
    (hk : m.Keeps k v) : m.execute o (.atom token) = .next (m.pushed k v) := by
  have hpush : k ≠ .name → m.pushEnabled o k v = m.pushed k v := by
    intro hne
    simp [pushEnabled, he, pushed, hne]
  cases k with
  | integer => cases hl; simp only [execute, hc, hpush (by decide)]
  | float => cases hl; simp only [execute, hc, hpush (by decide)]
  | boolean => cases hl; simp only [execute, hc, hpush (by decide)]
  | name => cases hl; simp only [execute, hc, executeName_of_keeps he hk]
  | exec => cases hl
  | code => cases hl

/-- **The code of a value reproduces it.**  Written, read and executed it pushes the value and does nothing else, except
that a name is protected no longer. -/
theorem execute_parse_text_ofItem (o : Options) (m : Machine ρ) (k : Kind) (v : k.Item) (hv : k.Codable v)
    (he : o.enables k = true) (hk : m.Keeps k v) :
    ∃ token meaning, Tree.ofItem k v = .ok (.atom token) ∧ Tree.parse (Tree.atom token).text = .ok (.atom token) ∧
      Token.classify token = .ok meaning ∧ k.literal? v = some meaning ∧
      m.execute o (.atom token) = .next (m.pushed k v) := by
  obtain ⟨token, meaning, hitem, htoken, hc, hl⟩ := Token.classify_of_ofItem hv
  have hparse := Tree.parse_text (Tree.wellFormed_atom.2 htoken)
  exact ⟨token, meaning, hitem, hparse, hc, hl, execute_of_literal? hc hl he hk⟩

/-- The least integer, the negative zero, and a name that is bound but protected. -/
theorem execute_parse_text_ofItem_borderline :
    let m : Machine Twister :=
      { initial (Twister.ofSeed 0) with bindings := ({} : Bindings).bind "key" (.atom "7"), quoting := true }
    m.execute {} (.atom "-9223372036854775808") = .next { m with integer := [-9223372036854775808] } ∧
    m.execute {} (.atom "-0.0") = .next { m with float := [Number.zero true] } ∧
    m.execute {} (.atom "key") = .next { m with name := ["key"], quoting := false } := by
  intro m
  refine ⟨?_, ?_, ?_⟩
  · have hin : Number.inInt64 (-9223372036854775808) = true := by decide
    obtain ⟨token, meaning, hitem, -, -, -, hexec⟩ :=
      execute_parse_text_ofItem {} m .integer (-9223372036854775808) hin rfl trivial
    cases hitem
    exact hexec
  · obtain ⟨token, meaning, hitem, -, -, -, hexec⟩ :=
      execute_parse_text_ofItem {} m .float (Number.zero true) trivial rfl trivial
    have htext : Tree.ofItem .float (Number.zero true) = .ok (.atom "-0.0") := rfl
    rw [htext] at hitem
    cases hitem
    exact hexec
  · obtain ⟨token, meaning, hitem, -, -, -, hexec⟩ :=
      execute_parse_text_ofItem {} m .name "key" ⟨by decide, rfl⟩ rfl (.inl rfl)
    cases hitem
    exact hexec

end Machine
end PushMachine
