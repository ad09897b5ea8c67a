import PushMachine.Proofs.Reproduction
/-!
# The order of floats

Any two floats that are numbers are in order one way or the other; one that is no number is in no order.  So a range
that does not hold between two floats is either the other way round or has an end that is no number (`not_le_iff`).
-/
namespace PushMachine
namespace Number

open Float.Model (UnpackedFloat)
open Float.Model.UnpackedFloat (unpackExponent unpackMantissa packedNaN)

theorem isNan_iff_unpack {x : Float} : isNan x = true ↔ x.toModel.unpack = .notANumber := by
  constructor
  · intro h
    rw [eq_nan_of_isNan h]
    rfl
  · intro h
    rw [Float.Model.unpack, UnpackedFloat.unpack] at h
    dsimp only at h
    split at h
    · rename_i hexponent
      split at h
      · cases h
      · rename_i hmantissa
        have hbits : x.toBits = UInt64.ofBitVec (packedNaN .binary64) :=
          UInt64.toBitVec_inj.1 (x.toModel.valid.eq_packedNaN hexponent hmantissa)
        rw [isNan, magnitudeBits, hbits]
        rfl
    · split at h
      · split at h <;> cases h
      · cases h

theorem compare_eq_none_iff (u v : UnpackedFloat) : u.compare v = none ↔ u = .notANumber ∨ v = .notANumber := by
  rcases u with ⟨_ | _⟩ | _ | ⟨_ | _⟩ | ⟨_ | _, m, e, hm⟩ <;>
    rcases v with ⟨_ | _⟩ | _ | ⟨_ | _⟩ | ⟨_ | _, n, f, hn⟩ <;>
    simp [UnpackedFloat.compare]

theorem compare_magnitude_swap (m n : Nat) (e f : Int) :
    (compare f e).then (compare n m) = ((compare e f).then (compare m n)).swap := by
  rw [Ordering.swap_then, ← Std.OrientedOrd.eq_swap, ← Std.OrientedOrd.eq_swap]

theorem compare_swap (u v : UnpackedFloat) : v.compare u = (u.compare v).map Ordering.swap := by
  rcases u with ⟨_ | _⟩ | _ | ⟨_ | _⟩ | ⟨_ | _, m, e, hm⟩ <;>
    rcases v with ⟨_ | _⟩ | _ | ⟨_ | _⟩ | ⟨_ | _, n, f, hn⟩ <;>
    first
    | rfl
    | exact congrArg some (compare_magnitude_swap m n e f)
    | exact congrArg (fun o => some o.swap) (compare_magnitude_swap m n e f)

/-- **A float is at most another, or the other is less, or one of them is no number.** -/
theorem not_le_iff {x y : Float} : ¬ x ≤ y ↔ isNan x = true ∨ isNan y = true ∨ y < x := by
  have hle : x ≤ y ↔ (x.toModel.unpack.compare y.toModel.unpack).any (·.isLE) = true := by
    change decide _ = true ↔ _
    rw [decide_eq_true_iff]
    rfl
  have hlt : y < x ↔ (y.toModel.unpack.compare x.toModel.unpack == some .lt) = true := by
    change decide _ = true ↔ _
    rw [decide_eq_true_iff]
    rfl
  rw [hle, hlt, isNan_iff_unpack, isNan_iff_unpack, ← or_assoc, ← compare_eq_none_iff,
    compare_swap x.toModel.unpack y.toModel.unpack]
  cases x.toModel.unpack.compare y.toModel.unpack with
  | none   => simp
  | some o => cases o <;> decide

/-- **What lies between zero and one is finite.** -/
theorem isFinite_of_unit {x : Float} (hzero : 0.0 ≤ x) (hone : x ≤ 1.0) : isFinite x = true := by
  by_contra hx
  rw [isFinite, decide_eq_true_eq, Nat.not_lt] at hx
  have hnan : ¬ isNan x = true := fun h => not_le_iff.2 (.inl h) hone
  rw [isNan, decide_eq_true_eq, Nat.not_lt] at hnan
  have hbits : magnitudeBits x = infinityBits := Nat.le_antisymm hnan hx
  rw [← ofMagnitude_magnitudeBits x, hbits] at hzero hone
  generalize isNegative x = negative at hzero hone
  cases negative with
  | false => exact absurd hone (by decide)
  | true  => exact absurd hzero (by decide)

end Number
end PushMachine
