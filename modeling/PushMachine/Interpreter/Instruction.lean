import PushMachine.Interpreter.State
/-!
# What an instruction does to an interpreter

An instruction first asks for the stacks that it needs: each has to be there and to hold so many items, none at all where
it is only given to.  If all is well it acts, and then it looks stacks up without asking again.  It never asks for its
own stack where it only rearranges it or gives to it, for it is not there without that stack, nor for EXEC where it only
gives to EXEC.
-/
namespace PushMachine

variable {ρ : Type}

open Effect

namespace Effect

/-- Take the top item of `j` and put what it becomes on `k`. -/
def convert (j k : Kind) (f : j.Item → k.Item) : Effect ρ Unit := do
  let x ← take j
  give k (f x)

/-- Take the top and the second item of `j` and put what they become on `k`. -/
def combine (j k : Kind) (f : j.Item → j.Item → k.Item) : Effect ρ Unit := do
  let top ← take j
  let second ← take j
  give k (f second top)

/-- Act if the top item of a stack is accepted. -/
def ifTop (k : Kind) (accepts : k.Item → Bool) (act : Effect ρ Unit) : Effect ρ Unit := do
  let x ← peek k
  if accepts x then act else return

end Effect

/-! ## Needs -/

/-- What a manipulation of the stack `k` asks for.  A depth is taken from INTEGER first, so on INTEGER itself it is one
item more. -/
def StackOp.needs (k : Kind) : StackOp → List (Kind × Nat)
  | .dup | .pop               => [(k, 1)]
  | .swap | .rot | .flush     => []
  | .equal                    => [(k, 2), (.boolean, 0)]
  | .stackdepth               => [(.integer, 0)]
  | .shove | .yank | .yankdup => [(.integer, if k = .integer then 2 else 1), (k, 1)]
  | .define                   => [(.name, 1), (k, 1)]

def IntegerOp.needs : IntegerOp → List (Kind × Nat)
  | .add | .sub | .mul | .div | .mod | .max | .min => [(.integer, 2)]
  | .less | .greater                               => [(.integer, 2), (.boolean, 0)]
  | .fromBoolean                                   => [(.boolean, 1)]
  | .fromFloat                                     => [(.float, 1)]
  | .rand                                          => []

def FloatOp.needs : FloatOp → List (Kind × Nat)
  | .add | .sub | .mul | .div | .mod | .max | .min => [(.float, 2)]
  | .less | .greater                               => [(.float, 2), (.boolean, 0)]
  | .sin | .cos | .tan                             => [(.float, 1)]
  | .fromBoolean                                   => [(.boolean, 1)]
  | .fromInteger                                   => [(.integer, 1)]
  | .rand                                          => []

def BooleanOp.needs : BooleanOp → List (Kind × Nat)
  | .and | .or   => [(.boolean, 2)]
  | .not         => [(.boolean, 1)]
  | .fromFloat   => [(.float, 1)]
  | .fromInteger => [(.integer, 1)]
  | .rand        => []

def ExecOp.needs : ExecOp → List (Kind × Nat)
  | .choose             => [(.boolean, 1), (.exec, 2)]
  | .k                  => [(.exec, 2)]
  | .s                  => [(.exec, 3)]
  | .y                  => [(.exec, 1)]
  | .doRange            => [(.integer, 2), (.exec, 1)]
  | .doCount | .doTimes => [(.integer, 1), (.exec, 1)]

def CodeOp.needs : CodeOp → List (Kind × Nat)
  | .append | .cons | .list         => [(.code, 2)]
  | .car | .cdr | .doKeep | .doPop  => [(.code, 1)]
  | .atom | .null                   => [(.code, 1), (.boolean, 0)]
  | .member                         => [(.code, 2), (.boolean, 0)]
  | .length | .size                 => [(.code, 1), (.integer, 0)]
  | .nth                            => [(.integer, 1), (.code, 1)]
  | .definition | .fromName         => [(.name, 1)]
  | .choose                         => [(.boolean, 1), (.code, 2)]
  | .quote                          => [(.exec, 1)]
  | .noop                           => []
  | .fromBoolean                    => [(.boolean, 1)]
  | .fromFloat                      => [(.float, 1)]
  | .fromInteger | .rand            => [(.integer, 1)]

/-- **What an instruction asks for**: stacks that have to be there, and so many items on each. -/
def Instruction.needs : Instruction → List (Kind × Nat)
  | .stack k op => op.needs k
  | .integer op => op.needs
  | .float op   => op.needs
  | .boolean op => op.needs
  | .name _     => []
  | .exec op    => op.needs
  | .code op    => op.needs

/-! ## Every stack -/

/-- What a manipulation of the stack `k` does if it finds what it asks for. -/
def StackOp.body (k : Kind) : StackOp → Effect ρ Unit
  | .equal      => combine k .boolean k.same
  | .define     => do
    let key ← take .name
    let x ← take k
    let t ← ofExcept (Tree.ofItem k x)
    modify (·.define key t)
  | .dup        => update k Stack.dup
  | .flush      => update k fun _ => []
  | .pop        => do let _ ← take k
  | .rot        => update k Stack.rot
  | .shove      => do
    let depth ← take .integer
    let x ← take k
    update k (Stack.shove x depth)
  | .stackdepth => do
    let xs ← items k
    give .integer xs.length
  | .swap       => update k Stack.swap
  | .yank       => do
    let depth ← take .integer
    update k (Stack.yank depth)
  | .yankdup    => do
    let depth ← take .integer
    update k (Stack.yankdup depth)

/-! ## Numbers and truth values -/

section Values

variable [RandomSource ρ]

namespace IntegerOp

def bodyBinary (f : Int → Int → Int) : Effect ρ Unit := combine .integer .integer f

/-- A divisor must not be zero. -/
def bodyDivide (f : Int → Int → Int) : Effect ρ Unit := ifTop .integer (· != 0) (combine .integer .integer f)

def bodyCompare (p : Int → Int → Bool) : Effect ρ Unit := combine .integer .boolean p

def body (o : Options) : IntegerOp → Effect ρ Unit
  | .add         => bodyBinary fun a b => Number.wrap (a + b)
  | .sub         => bodyBinary fun a b => Number.wrap (a - b)
  | .mul         => bodyBinary fun a b => Number.wrap (a * b)
  | .div         => bodyDivide fun a b => Number.wrap (a.tdiv b)
  | .mod         => bodyDivide fun a b => a.fmod b
  | .less        => bodyCompare fun a b => a < b
  | .greater     => bodyCompare fun a b => a > b
  | .max         => bodyBinary Max.max
  | .min         => bodyBinary Min.min
  | .fromBoolean => convert .boolean .integer fun b => if b then 1 else 0
  | .fromFloat   => ifTop .float Number.isFinite (convert .float .integer fun x => Number.clamp (Number.truncate x))
  | .rand        => do
    let n ← generate (Generator.draw (Draw.between o.minInteger o.maxInteger))
    give .integer n

end IntegerOp

namespace FloatOp

def bodyBinary (f : Float → Float → Float) : Effect ρ Unit := combine .float .float f

def bodyDivide (f : Float → Float → Float) : Effect ρ Unit :=
  ifTop .float (fun x => !(x == 0.0)) (combine .float .float f)

def bodyCompare (p : Float → Float → Bool) : Effect ρ Unit := combine .float .boolean p

def bodyUnary (f : Float → Float) : Effect ρ Unit := ifTop .float Number.isFinite (convert .float .float f)

def body (o : Options) : FloatOp → Effect ρ Unit
  | .add         => bodyBinary (· + ·)
  | .sub         => bodyBinary (· - ·)
  | .mul         => bodyBinary (· * ·)
  | .div         => bodyDivide (· / ·)
  | .mod         => bodyDivide Number.flooredMod
  | .less        => bodyCompare fun a b => a < b
  | .greater     => bodyCompare fun a b => a > b
  | .max         => bodyBinary greaterOf
  | .min         => bodyBinary lesserOf
  | .sin         => bodyUnary Float.sin
  | .cos         => bodyUnary Float.cos
  | .tan         => bodyUnary Float.tan
  | .fromBoolean => convert .boolean .float fun b => if b then 1.0 else 0.0
  | .fromInteger => do
    let n ← take .integer
    match Number.floatOfInt? n with
    | some x => give .float x
    | none   => halt (.fault .integerTooLarge)
  | .rand        => do
    let x ← generate (Generator.draw (Draw.uniform o.minFloat o.maxFloat))
    give .float x

end FloatOp

def BooleanOp.body : BooleanOp → Effect ρ Unit
  | .and         => combine .boolean .boolean (· && ·)
  | .or          => combine .boolean .boolean (· || ·)
  | .not         => convert .boolean .boolean (! ·)
  | .fromFloat   => convert .float .boolean (· != 0.0)
  | .fromInteger => convert .integer .boolean (· != (0 : Int))
  | .rand        => do
    let b ← generate (Generator.draw (Draw.chance 0.5))
    give .boolean b

/-! ## Names -/

def NameOp.body : NameOp → Effect ρ Unit
  | .quote         => modify ({ · with quoting := true })
  | .rand          => do
    let name ← generate Supply.newName
    give .name name
  | .randBoundName => do
    match ← read (·.bindings.names) with
    | []            => return
    | name :: names =>
      let chosen ← generate (Generator.draw (Draw.choose name names))
      give .name chosen

end Values

/-! ## Programs -/

namespace ExecOp

/-- Start a loop over the indices below the top integer, with this body. -/
def bodyCount (o : Options) (wrapBody : Tree → Tree) : Effect ρ Unit := do
  let n ← peek .integer
  if n < 1 then return
  let t ← peek .exec
  let loop ← ofExcept (buildLoop 0 (n - 1) (wrapBody t))
  if o.fits loop then
    let _ ← take .integer
    let _ ← take .exec
    give .exec loop

/-- Take the indices and the body of a loop, and put the index and these trees in their place. -/
def turn (current : Int) (trees : List Tree) : Effect ρ Unit := do
  update .integer (List.drop 2)
  let _ ← take .exec
  give .integer current
  update .exec (trees ++ ·)

def body (o : Options) : ExecOp → Effect ρ Unit
  | .choose  => do
    let c ← take .boolean
    let a ← take .exec
    let b ← take .exec
    give .exec (if c then a else b)
  | .k       => do
    let a ← take .exec
    let _ ← take .exec
    give .exec a
  | .s       => do
    let a ← pick .exec 0
    let b ← pick .exec 1
    let c ← pick .exec 2
    if o.fits (.list [b, c]) then
      update .exec (List.drop 3)
      update .exec ([a, c, .list [b, c]] ++ ·)
  | .y       => do
    let t ← peek .exec
    if o.fits (.list [recurToken, t]) then
      let _ ← take .exec
      update .exec ([t, .list [recurToken, t]] ++ ·)
  | .doRange => do
    let last ← pick .integer 0
    let current ← pick .integer 1
    let t ← peek .exec
    if current = last then turn current [t]
    else
      let loop ← ofExcept (buildLoop (if current < last then current + 1 else current - 1) last t)
      if o.fits loop then turn current [t, loop]
  | .doCount => bodyCount o id
  | .doTimes => bodyCount o withoutIndex

end ExecOp

/-! ## Code -/

namespace CodeOp

/-- Replace the two top trees by a tree made of the second and the top one, if it fits. -/
def bodyBinary (o : Options) (f : Tree → Tree → Tree) : Effect ρ Unit := do
  let top ← pick .code 0
  let second ← pick .code 1
  if o.fits (f second top) then combine .code .code f

/-- Move the top item of a stack onto CODE as code. -/
def bodyOfStack (k : Kind) : Effect ρ Unit := do
  let x ← take k
  let t ← ofExcept (Tree.ofItem k x)
  give .code t

variable [RandomSource ρ]

def body (o : Options) : CodeOp → Effect ρ Unit
  | .append      => bodyBinary o fun second top => .list (top.items ++ second.items)
  | .cons        => bodyBinary o fun second top => .list (second :: top.items)
  | .list        => bodyBinary o fun second top => .list [second, top]
  | .car         => convert .code .code first
  | .cdr         => convert .code .code others
  | .atom        => convert .code .boolean Tree.isAtom
  | .null        => convert .code .boolean (· == .list [])
  | .member      => combine .code .boolean fun second top => top.items.contains second
  | .length      => convert .code .integer fun t => t.items.length
  | .size        => convert .code .integer fun t => t.points
  | .nth         => do
    let n ← take .integer
    convert .code .code (item n)
  | .definition  => do
    let name ← peek .name
    match ← read (·.bindings.lookup name) with
    | some t =>
      let _ ← take .name
      give .code t
    | none   => return
  | .doKeep      => do
    give .exec popToken
    let t ← peek .code
    give .exec t
  | .doPop       => convert .code .exec id
  | .choose      => do
    let c ← take .boolean
    combine .code .exec fun second top => if c then second else top
  | .quote       => ifTop .exec o.fits (convert .exec .code id)
  | .noop        => return
  | .fromBoolean => bodyOfStack .boolean
  | .fromFloat   => bodyOfStack .float
  | .fromInteger => bodyOfStack .integer
  | .fromName    => bodyOfStack .name
  | .rand        => do
    let n ← peek .integer
    if randomLimit o n < 1 then return
    let _ ← take .integer
    let t ← generate (RandomCode.upTo o (randomLimit o n))
    give .code t

end CodeOp

namespace Instruction

variable [RandomSource ρ]

/-- What an instruction does if it finds what it asks for. -/
def body (o : Options) : Instruction → Effect ρ Unit
  | .stack k op => op.body k
  | .integer op => op.body o
  | .float op   => op.body o
  | .boolean op => op.body
  | .name op    => op.body
  | .exec op    => op.body o
  | .code op    => op.body o

/-- **What an instruction does to an interpreter.** -/
def act (o : Options) (i : Instruction) : Effect ρ Unit := guarded i.needs (i.body o)

end Instruction
end PushMachine
