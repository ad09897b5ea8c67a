import PushMachine.Random.Source
/-!
# The twister

The random source of a machine: the generator MT19937, with a state of 624 words, seeded by an integer of any size
whose magnitude is cut into 32-bit words.
-/
namespace PushMachine

structure Twister where
  words    : Array UInt32
  /-- The next word to give out; past the end, the words are renewed first. -/
  position : Nat

namespace Twister

def size : Nat := 624

/-- The 32-bit words of a number, least significant first; zero has one. -/
def keyWords (n : Nat) : List UInt32 :=
  if n < 0x100000000 then [UInt32.ofNat n] else UInt32.ofNat (n % 0x100000000) :: keyWords (n / 0x100000000)
termination_by n
decreasing_by exact Nat.div_lt_self (by omega) (by decide)

def fold (w : UInt32) : UInt32 := w ^^^ (w >>> 30)

/-- The state grown from one word. -/
def grow (seed : UInt32) : Array UInt32 :=
  (List.range (size - 1)).foldl
    (fun ws i => ws.push (1812433253 * fold (ws.getD i 0) + UInt32.ofNat (i + 1))) #[seed]

/-- Seeding goes round the state and round the key at once. -/
structure Mixing where
  words : Array UInt32
  place : Nat
  turn  : Nat

/-- Replace the word at the current place and go on; past the end the last word becomes the first. -/
def Mixing.advance (m : Mixing) (w : UInt32) (turn : Nat) : Mixing :=
  let words := m.words.setIfInBounds m.place w
  if m.place + 1 < size then ⟨words, m.place + 1, turn⟩
  else ⟨words.setIfInBounds 0 (words.getD (size - 1) 0), 1, turn⟩

def Mixing.previous (m : Mixing) : UInt32 := fold (m.words.getD (m.place - 1) 0)

def Mixing.absorb (key : Array UInt32) (m : Mixing) : Mixing :=
  let w := (m.words.getD m.place 0 ^^^ (m.previous * 1664525)) + key.getD m.turn 0 + UInt32.ofNat m.turn
  m.advance w (if m.turn + 1 < key.size then m.turn + 1 else 0)

def Mixing.spread (m : Mixing) : Mixing :=
  m.advance ((m.words.getD m.place 0 ^^^ (m.previous * 1566083941)) - UInt32.ofNat m.place) m.turn

/-- The twister seeded by an integer; the sign does not matter. -/
def ofSeed (seed : Int) : Twister :=
  let key := (keyWords seed.natAbs).toArray
  let mixed := Nat.repeat (Mixing.absorb key) (max size key.size) ⟨grow 19650218, 1, 0⟩
  let spread := Nat.repeat Mixing.spread (size - 1) mixed
  ⟨spread.words.setIfInBounds 0 0x80000000, size⟩

/-- Renew one word from its successor and the word 397 places on. -/
def renewWord (ws : Array UInt32) (k : Nat) : Array UInt32 :=
  let y := (ws.getD k 0 &&& 0x80000000) ||| (ws.getD ((k + 1) % size) 0 &&& 0x7fffffff)
  let twist : UInt32 := if y &&& 1 = 1 then 0x9908b0df else 0
  ws.setIfInBounds k (ws.getD ((k + 397) % size) 0 ^^^ (y >>> 1) ^^^ twist)

def renew (ws : Array UInt32) : Array UInt32 := (List.range size).foldl renewWord ws

def temper (y : UInt32) : UInt32 :=
  let y := y ^^^ (y >>> 11)
  let y := y ^^^ ((y <<< 7) &&& 0x9d2c5680)
  let y := y ^^^ ((y <<< 15) &&& 0xefc60000)
  y ^^^ (y >>> 18)

def next (t : Twister) : UInt32 × Twister :=
  if t.position < size then (temper (t.words.getD t.position 0), ⟨t.words, t.position + 1⟩)
  else
    let words := renew t.words
    (temper (words.getD 0 0), ⟨words, 1⟩)

instance : RandomSource Twister := ⟨next⟩

end Twister
end PushMachine
