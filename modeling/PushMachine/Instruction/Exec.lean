import PushMachine.Instruction.Basic
import PushMachine.Machine.State
import PushMachine.Tree.Value
/-!
# EXEC instructions

These act on the program that is still to be executed; its next item is on top.  A tree that an instruction would
build has to fit the size limit, or the instruction does nothing.  A loop whose indices are too long to be written
cannot be built at all.
-/
namespace PushMachine

/-- **Whether a tree respects the size limit.** -/
def Options.fits (o : Options) (t : Tree) : Bool := t.points ≤ o.programPoints

namespace ExecOp

variable {ρ : Type}

def rangeToken : Tree := .atom "exec.do*range"
def recurToken : Tree := .atom "exec.y"
def dropIndexToken : Tree := .atom "integer.pop"

/-- The rest of a counted loop: from `current` to `last`, running `body` with the index on INTEGER. -/
def rangeLoop (current last : Int) (body : Tree) : Tree :=
  .list [Tree.integer current, Tree.integer last, rangeToken, body]

/-- **Build the rest of a counted loop**, unless one of its indices is too long to be written. -/
def buildLoop (current last : Int) (body : Tree) : Except Fault Tree := do
  return .list [← Tree.ofInteger current, ← Tree.ofInteger last, rangeToken, body]

theorem buildLoop_eq (current last : Int) (body : Tree) :
    buildLoop current last body
      = if Number.isWritable current && Number.isWritable last then .ok (rangeLoop current last body)
        else .error .integerTooLong := by
  cases hc : Number.isWritable current <;> cases hl : Number.isWritable last <;>
    simp [buildLoop, Tree.ofInteger, hc, hl] <;> rfl

theorem buildLoop_eq_error_iff {current last : Int} {body : Tree} {f : Fault} :
    buildLoop current last body = .error f ↔
      (Number.isWritable current && Number.isWritable last) = false ∧ .integerTooLong = f := by
  rw [buildLoop_eq]
  split <;> simp_all

theorem buildLoop_of_writable {current last : Int} (hc : Number.isWritable current = true)
    (hl : Number.isWritable last = true) (body : Tree) :
    buildLoop current last body = .ok (rangeLoop current last body) := by
  rw [buildLoop_eq, hc, hl]
  rfl

theorem eq_of_buildLoop {current last : Int} {body loop : Tree} (h : buildLoop current last body = .ok loop) :
    loop = rangeLoop current last body := by
  rw [buildLoop_eq] at h
  split at h
  · exact (Except.ok.inj h).symm
  · cases h

/-- The first item if true, the second if false. -/
def choice (m : Machine ρ) : Machine ρ :=
  match m.boolean, m.exec with
  | c :: booleans, a :: b :: rest => { m with boolean := booleans, exec := (if c then a else b) :: rest }
  | _,             _              => m

/-- Drop the second item. -/
def constant (m : Machine ρ) : Machine ρ :=
  match m.exec with
  | a :: _ :: rest => { m with exec := a :: rest }
  | _              => m

/-- From `a b c` to `a c (b c)`. -/
def distribute (o : Options) (m : Machine ρ) : Machine ρ :=
  match m.exec with
  | a :: b :: c :: rest =>
    if o.fits (.list [b, c]) then { m with exec := a :: c :: .list [b, c] :: rest } else m
  | _ => m

/-- From `a` to `a (exec.y a)`. -/
def recur (o : Options) (m : Machine ρ) : Machine ρ :=
  match m.exec with
  | a :: rest =>
    if o.fits (.list [recurToken, a]) then { m with exec := a :: .list [recurToken, a] :: rest } else m
  | [] => m

/-- One turn of a counted loop: push the index, run the body, and go on one step nearer to the last index. -/
def range (o : Options) (m : Machine ρ) : Outcome Fault ρ :=
  match m.integer, m.exec with
  | last :: current :: integers, body :: rest =>
    if current = last then .next { m with integer := current :: integers, exec := body :: rest }
    else
      match buildLoop (if current < last then current + 1 else current - 1) last body with
      | .error e => .stop e m
      | .ok loop =>
        if o.fits loop then .next { m with integer := current :: integers, exec := body :: loop :: rest } else .next m
  | _, _ => .next m

/-- Start a loop over the indices below the top integer, with this body. -/
def countWith (o : Options) (wrapBody : Tree → Tree) (m : Machine ρ) : Outcome Fault ρ :=
  match m.integer, m.exec with
  | n :: integers, body :: rest =>
    if n < 1 then .next m
    else
      match buildLoop 0 (n - 1) (wrapBody body) with
      | .error e => .stop e m
      | .ok loop => if o.fits loop then .next { m with integer := integers, exec := loop :: rest } else .next m
  | _, _ => .next m

/-- The body that pops its index first. -/
def withoutIndex (body : Tree) : Tree := .list (dropIndexToken :: body.items)

/-- **What an EXEC instruction does.** -/
def run (o : Options) (m : Machine ρ) : ExecOp → Outcome Fault ρ
  | .choose  => .next (choice m)
  | .k       => .next (constant m)
  | .s       => .next (distribute o m)
  | .y       => .next (recur o m)
  | .doRange => range o m
  | .doCount => countWith o id m
  | .doTimes => countWith o withoutIndex m

end ExecOp
end PushMachine
