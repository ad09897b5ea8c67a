import PushMachine.Kind
import PushMachine.Number.Decimal
import PushMachine.Number.FloatText
import PushMachine.Tree.Scan
/-!
# Values as code

The tree that, executed, gives a value back.  A name can fail to have one, if it is no token, and so can an integer, if
it has more digits than are written.
-/
namespace PushMachine
namespace Tree

/-- The digits of an integer. -/
def integer (n : Int) : Tree := .atom n.repr

/-- **The tree of an integer**, unless it is too long to be written. -/
def ofInteger (n : Int) : Except Fault Tree :=
  if Number.isWritable n then .ok (integer n) else .error .integerTooLong

theorem ofInteger_eq_ok_iff {n : Int} {t : Tree} :
    ofInteger n = .ok t ↔ Number.isWritable n = true ∧ integer n = t := by
  unfold ofInteger
  split <;> simp_all

theorem ofInteger_eq_error_iff {n : Int} {f : Fault} :
    ofInteger n = .error f ↔ Number.isWritable n = false ∧ .integerTooLong = f := by
  unfold ofInteger
  split <;> simp_all

theorem ofInteger_of_writable {n : Int} (h : Number.isWritable n = true) : ofInteger n = .ok (integer n) := if_pos h

theorem ofInteger_of_not_writable {n : Int} (h : Number.isWritable n = false) :
    ofInteger n = .error .integerTooLong := if_neg (by simp [h])

def ofFloat (x : Float) : Tree := .atom (Number.floatText x)

def ofBoolean (b : Bool) : Tree := .atom (if b then "true" else "false")

/-- **The tree that reproduces an item of a stack.** -/
def ofItem : (k : Kind) → k.Item → Except Fault Tree
  | .integer, n => ofInteger n
  | .float,   x => .ok (ofFloat x)
  | .boolean, b => .ok (ofBoolean b)
  | .name,    s => ofToken s
  | .exec,    t => .ok t
  | .code,    t => .ok t

end Tree
end PushMachine
