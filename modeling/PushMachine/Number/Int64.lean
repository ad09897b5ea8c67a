/-!
# Signed 64-bit integers

The integers of a program are unbounded in principle, but arithmetic brings its result back into the signed 64-bit
range, and only literals in that range are integers at all.
-/
namespace PushMachine
namespace Number

def int64Min : Int := -0x8000000000000000
def int64Max : Int := 0x7fffffffffffffff

/-- Whether an integer lies in the signed 64-bit range. -/
def inInt64 (n : Int) : Bool := int64Min ≤ n && n ≤ int64Max

/-- **The signed 64-bit representative of an integer modulo `2 ^ 64`.** -/
def wrap (n : Int) : Int := n.bmod 0x10000000000000000

/-- The nearest integer of the signed 64-bit range. -/
def clamp (n : Int) : Int := max int64Min (min int64Max n)

theorem inInt64_iff {n : Int} : inInt64 n = true ↔ -9223372036854775808 ≤ n ∧ n ≤ 9223372036854775807 := by
  unfold inInt64
  rw [Bool.and_eq_true, decide_eq_true_eq, decide_eq_true_eq]
  exact Iff.rfl

theorem wrap_of_inInt64 {n : Int} (h : inInt64 n = true) : wrap n = n := by
  rw [inInt64_iff] at h
  unfold wrap
  exact Int.bmod_eq_of_le (by omega) (by omega)

theorem inInt64_wrap (n : Int) : inInt64 (wrap n) = true := by
  have h₁ := Int.le_bmod (x := n) (m := 0x10000000000000000) (by decide)
  have h₂ := Int.bmod_lt (x := n) (m := 0x10000000000000000) (by decide)
  rw [inInt64_iff]
  simp only [wrap]
  omega

end Number
end PushMachine
