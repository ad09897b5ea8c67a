import PushMachine.Fault
import PushMachine.Random.Source
/-!
# Random values that may fail

Random code needs a random source and the names generated so far; together they are a supply.  A generator takes a
supply and gives a value or a fault, and in either case the supply it leaves.
-/
namespace PushMachine

structure Supply (ρ : Type) where
  /-- The names generated so far, in order. -/
  minted : List String := []
  source : ρ

/-- **A generator of random values.** -/
def Generator (ρ α : Type) := Supply ρ → Except Fault α × Supply ρ

namespace Generator

variable {ρ α β : Type}

protected def pure (a : α) : Generator ρ α := fun s => (.ok a, s)

protected def bind (g : Generator ρ α) (f : α → Generator ρ β) : Generator ρ β := fun s =>
  match g s with
  | (.ok a, s)    => f a s
  | (.error e, s) => (.error e, s)

instance : Monad (Generator ρ) where
  pure := Generator.pure
  bind := Generator.bind

instance : LawfulMonad (Generator ρ) := LawfulMonad.mk' _
  (by
    intro α g
    funext s
    simp only [Functor.map, Generator.bind, Generator.pure, Function.comp, id]
    split <;> (rename_i h; rw [h]))
  (by intros; rfl)
  (by
    intro α β γ g f h
    funext s
    simp only [bind, Generator.bind]
    rcases g s with ⟨_ | _, _⟩ <;> rfl)

def fail (e : Fault) : Generator ρ α := fun s => (.error e, s)

/-- What was found without a draw. -/
def ofExcept : Except Fault α → Generator ρ α
  | .ok a    => pure a
  | .error e => fail e

/-- A draw from the source alone. -/
def draw (d : ρ → α × ρ) : Generator ρ α := fun s =>
  (.ok (d s.source).1, { s with source := (d s.source).2 })

end Generator

namespace Supply

variable {ρ : Type} [RandomSource ρ]

/-- The number of letters of a generated name. -/
def nameLength : Nat := 6

def drawLetters : Nat → ρ → List Char × ρ
  | 0,     s => ([], s)
  | n + 1, s =>
    let (i, s) := Draw.below 26 s
    let (cs, s) := drawLetters n s
    (Char.ofNat ('a'.toNat + i) :: cs, s)

/-- An underscore and six small letters. -/
def drawName (s : ρ) : String × ρ :=
  let (cs, s) := drawLetters nameLength s
  (String.ofList ('_' :: cs), s)

/-- Draw a name until it is new, at most so many times. -/
def mint : Nat → Generator ρ String
  | 0         => .fail .namesExhausted
  | tries + 1 => fun s =>
    let (name, source) := drawName s.source
    if s.minted.contains name then mint tries { s with source := source }
    else (.ok name, ⟨s.minted ++ [name], source⟩)

/-- **A name that was not generated before.**  With all but a few of the 26 ^ 6 names unused, the first draw is nearly
always new; a supply that yields no new one in `Draw.redrawLimit` draws has none left. -/
def newName : Generator ρ String := mint Draw.redrawLimit

/-- A new name with the given probability, or if there is none yet; otherwise one of those generated. -/
def anyName (probability : Float) : Generator ρ String := fun s =>
  match s.minted with
  | []            => newName s
  | name :: names =>
    let (fresh, source) := Draw.chance probability s.source
    if fresh then newName { s with source := source }
    else Generator.draw (Draw.choose name names) { s with source := source }

end Supply
end PushMachine
