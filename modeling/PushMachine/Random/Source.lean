/-!
# Random sources and draws

A random source yields 32-bit words.  Everything else that is drawn (numbers of any size, floats, choices, orders) is
made from its words in a fixed way, so a source and its state determine all later draws.

A number below a bound is drawn by drawing as many bits as the bound has until the number is small enough.  A source
that never obliges would make this endless; after `redrawLimit` draws the last one is reduced instead, which for a
fair source happens with probability below `2 ^ -redrawLimit`.
-/
namespace PushMachine

class RandomSource (ρ : Type) where
  word : ρ → UInt32 × ρ

namespace Draw

variable {ρ α : Type} [RandomSource ρ]

def redrawLimit : Nat := 1000

/-- A number of `k` bits: whole words, the least significant first, then the leading bits of a last word. -/
def bits (k : Nat) (s : ρ) : Nat × ρ :=
  let (w, s) := RandomSource.word s
  if k ≤ 32 then (w.toNat >>> (32 - k), s)
  else
    let (high, s) := bits (k - 32) s
    (w.toNat + high * 0x100000000, s)
termination_by k
decreasing_by omega

/-- Draw `k` bits until they are below `n`, at most `tries` times more. -/
def redraw (n k : Nat) : Nat → ρ → Nat × ρ
  | 0,         s => let (r, s) := bits k s; (r % n, s)
  | tries + 1, s => let (r, s) := bits k s; if r < n then (r, s) else redraw n k tries s

/-- **A number below `n`**, for positive `n`. -/
def below (n : Nat) (s : ρ) : Nat × ρ := redraw n (n.log2 + 1) redrawLimit s

theorem redraw_lt {n : Nat} (k : Nat) (h : 0 < n) : ∀ (tries : Nat) (s : ρ), (redraw n k tries s).1 < n
  | 0,         s => Nat.mod_lt _ h
  | tries + 1, s => by
    simp only [redraw]
    split
    · assumption
    · exact redraw_lt k h tries _

theorem below_lt {n : Nat} (h : 0 < n) (s : ρ) : (below n s).1 < n := redraw_lt _ h _ s

/-- An integer from `low` to `high`, both included. -/
def between (low high : Int) (s : ρ) : Int × ρ :=
  let (r, s) := below (high - low + 1).toNat s
  (low + r, s)

theorem between_bounds {low high : Int} (h : low ≤ high) (s : ρ) :
    low ≤ (between low high s).1 ∧ (between low high s).1 ≤ high := by
  have := below_lt (n := (high - low + 1).toNat) (by omega) s
  simp only [between]
  omega

/-- A float from zero up to one, a multiple of `2 ^ -53`. -/
def unit (s : ρ) : Float × ρ :=
  let (a, s) := RandomSource.word s
  let (b, s) := RandomSource.word s
  let numerator : UInt64 := (a >>> 5).toUInt64 * (67108864 : UInt64) + (b >>> 6).toUInt64
  (numerator.toFloat / 9007199254740992.0, s)

/-- A float from `low` to `high`, computed in floating point. -/
def uniform (low high : Float) (s : ρ) : Float × ρ :=
  let (u, s) := unit s
  (low + (high - low) * u, s)

/-- Whether an event of this probability happens. -/
def chance (probability : Float) (s : ρ) : Bool × ρ :=
  let (u, s) := unit s
  (u < probability, s)

/-- One of the items `x :: xs`. -/
def choose (x : α) (xs : List α) (s : ρ) : α × ρ :=
  let (i, s) := below (xs.length + 1) s
  ((x :: xs).getD i x, s)

/-- Swap each place from `i` down to 1 with a place drawn among those up to it. -/
def shuffleFrom : Nat → Array α → ρ → Array α × ρ
  | 0,     xs, s => (xs, s)
  | i + 1, xs, s =>
    let (j, s) := below (i + 2) s
    shuffleFrom i (xs.swapIfInBounds (i + 1) j) s

/-- The items in a random order. -/
def shuffle (xs : List α) (s : ρ) : List α × ρ :=
  let (ys, s) := shuffleFrom (xs.length - 1) xs.toArray s
  (ys.toList, s)

end Draw
end PushMachine
