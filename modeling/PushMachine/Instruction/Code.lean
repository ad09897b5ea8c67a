import PushMachine.Instruction.Exec
import PushMachine.Random.Code
/-!
# CODE instructions

These act on trees as data.  Where a list is needed a token stands for the list that holds only it, and a result that
does not fit the size limit makes the instruction do nothing.
-/
namespace PushMachine
namespace CodeOp

variable {ρ : Type} [RandomSource ρ]

/-- Replace the two top trees by a tree made of the second and the top one, if it fits. -/
def binary (o : Options) (f : Tree → Tree → Tree) (m : Machine ρ) : Machine ρ :=
  match m.code with
  | top :: second :: rest => if o.fits (f second top) then { m with code := f second top :: rest } else m
  | _                     => m

/-- Replace the top tree by a part of it. -/
def unary (f : Tree → Tree) (m : Machine ρ) : Machine ρ :=
  match m.code with
  | top :: rest => { m with code := f top :: rest }
  | []          => m

/-- The first item, or the empty list if there is none. -/
def first (t : Tree) : Tree := t.items.headD (.list [])

/-- All items but the first. -/
def others (t : Tree) : Tree := .list t.items.tail

/-- Replace the top tree by a boolean. -/
def test (o : Options) (p : Tree → Bool) (m : Machine ρ) : Machine ρ :=
  match m.code with
  | top :: rest => if o.enables .boolean then { m with code := rest, boolean := p top :: m.boolean } else m
  | []          => m

/-- Replace the top tree by an integer. -/
def measure (o : Options) (f : Tree → Int) (m : Machine ρ) : Machine ρ :=
  match m.code with
  | top :: rest => if o.enables .integer then { m with code := rest, integer := f top :: m.integer } else m
  | []          => m

/-- Whether the second tree is an item of the top one. -/
def testMember (o : Options) (m : Machine ρ) : Machine ρ :=
  match m.code with
  | top :: second :: rest =>
    if o.enables .boolean then { m with code := rest, boolean := top.items.contains second :: m.boolean } else m
  | _ => m

/-- The item at an index, counted round the list by the index's magnitude; an empty list stays. -/
def item (n : Int) (t : Tree) : Tree := t.items.getD (n.natAbs % t.items.length) (.list [])

def pickItem (m : Machine ρ) : Machine ρ :=
  match m.integer, m.code with
  | n :: integers, top :: rest => { m with integer := integers, code := item n top :: rest }
  | _,             _           => m

/-- Push the tree bound to the top name, if it is bound. -/
def pushDefinition (m : Machine ρ) : Machine ρ :=
  match m.name with
  | name :: names =>
    match m.bindings.lookup name with
    | some t => { m with name := names, code := t :: m.code }
    | none   => m
  | [] => m

def popToken : Tree := .atom "code.pop"

/-- Execute the top tree, and pop it once it has run. -/
def executeTop (m : Machine ρ) : Machine ρ :=
  match m.code with
  | top :: _ => { m with exec := top :: popToken :: m.exec }
  | []       => m

/-- Pop the top tree and execute it. -/
def executePopped (m : Machine ρ) : Machine ρ :=
  match m.code with
  | top :: rest => { m with code := rest, exec := top :: m.exec }
  | []          => m

/-- Execute the second tree if true, the top one if false. -/
def choice (m : Machine ρ) : Machine ρ :=
  match m.boolean, m.code with
  | c :: booleans, top :: second :: rest =>
    { m with boolean := booleans, code := rest, exec := (if c then second else top) :: m.exec }
  | _, _ => m

/-- Move the next item of the program onto CODE, if it fits. -/
def quoteNext (o : Options) (m : Machine ρ) : Machine ρ :=
  match m.exec with
  | t :: rest => if o.fits t then { m with exec := rest, code := t :: m.code } else m
  | []        => m

/-- Move the top item of a stack onto CODE as code. -/
def ofStack (k : Kind) (m : Machine ρ) : Outcome Fault ρ :=
  match m.stack k with
  | []      => .next m
  | x :: xs =>
    let popped := m.setStack k xs
    match Tree.ofItem k x with
    | .ok t    => .next { popped with code := t :: popped.code }
    | .error e => .stop e popped

/-- The most points a random tree may have, asked for by an integer. -/
def randomLimit (o : Options) (n : Int) : Int := min (min (n.natAbs : Int) o.randomPoints) o.programPoints

def random (o : Options) (m : Machine ρ) : Outcome Fault ρ :=
  match m.integer with
  | []            => .next m
  | n :: integers =>
    if randomLimit o n < 1 then .next m
    else
      match RandomCode.upTo o (randomLimit o n) m.supply with
      | (.ok t, supply)    => .next { m with integer := integers, code := t :: m.code, supply := supply }
      | (.error e, supply) => .stop e { m with integer := integers, supply := supply }

/-- **What a CODE instruction does.** -/
def run (o : Options) (m : Machine ρ) : CodeOp → Outcome Fault ρ
  | .append      => .next (binary o (fun second top => .list (top.items ++ second.items)) m)
  | .cons        => .next (binary o (fun second top => .list (second :: top.items)) m)
  | .list        => .next (binary o (fun second top => .list [second, top]) m)
  | .car         => .next (unary first m)
  | .cdr         => .next (unary others m)
  | .atom        => .next (test o Tree.isAtom m)
  | .null        => .next (test o (· == .list []) m)
  | .member      => .next (testMember o m)
  | .length      => .next (measure o (fun t => t.items.length) m)
  | .size        => .next (measure o (fun t => t.points) m)
  | .nth         => .next (pickItem m)
  | .definition  => .next (pushDefinition m)
  | .doKeep      => .next (executeTop m)
  | .doPop       => .next (executePopped m)
  | .choose      => .next (choice m)
  | .quote       => .next (quoteNext o m)
  | .noop        => .next m
  | .fromBoolean => ofStack .boolean m
  | .fromFloat   => ofStack .float m
  | .fromInteger => ofStack .integer m
  | .fromName    => ofStack .name m
  | .rand        => random o m

end CodeOp
end PushMachine
