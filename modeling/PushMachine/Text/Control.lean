/-!
# Control sequences

A terminal takes an escape character and an opening bracket as the start of a command about colours, the cursor or its
own mode: parameters follow, then intermediate characters, and one final character ends it.  The three classes are
consecutive ranges of ASCII, so a sequence can be read in one way only.  Text that is printed loses these sequences,
found from left to right, and keeps everything else: an escape character that starts none of them stays, and what a
removed sequence brings together is not looked at again.
-/
namespace PushMachine
namespace Text

def escape : Char := Char.ofNat 0x1B

/-- Digits, colon, semicolon and the characters up to the question mark. -/
def isParameter (c : Char) : Bool := 0x30 ≤ c.toNat && c.toNat ≤ 0x3F

/-- The space and the characters up to the slash. -/
def isIntermediate (c : Char) : Bool := 0x20 ≤ c.toNat && c.toNat ≤ 0x2F

/-- Letters and the characters around them, up to the tilde. -/
def isFinal (c : Char) : Bool := 0x40 ≤ c.toNat && c.toNat ≤ 0x7E

/-- The number of characters of the control sequence that a text starts with, zero if it starts with none. -/
def controlLength : List Char → Nat
  | e :: '[' :: cs =>
    let rest := cs.dropWhile isParameter
    match rest.dropWhile isIntermediate with
    | c :: _ =>
      if e = escape && isFinal c then
        (cs.takeWhile isParameter).length + (rest.takeWhile isIntermediate).length + 3
      else 0
    | []     => 0
  | _              => 0

/-- Copy a text onto what is `kept` so far, last character first; the number says how many of its characters still
belong to a control sequence. -/
def copyPlain (kept : List Char) : Nat → List Char → List Char
  | _,     []      => kept.reverse
  | n + 1, _ :: cs => copyPlain kept n cs
  | 0,     c :: cs =>
    match controlLength (c :: cs) with
    | 0     => copyPlain (c :: kept) 0 cs
    | n + 1 => copyPlain kept n cs

/-- **A text without its control sequences.** -/
def plain (s : String) : String := String.ofList (copyPlain [] 0 s.toList)

theorem copyPlain_eq_append (kept : List Char) (n : Nat) (cs : List Char) :
    copyPlain kept n cs = kept.reverse ++ copyPlain [] n cs := by
  induction cs generalizing kept n with
  | nil          => simp [copyPlain]
  | cons c cs ih =>
    cases n with
    | succ n => rw [copyPlain, copyPlain, ih]
    | zero   =>
      rw [copyPlain, copyPlain]
      split
      · rw [ih (c :: kept), ih [c], List.reverse_cons, List.append_assoc, List.reverse_singleton]
      · rw [ih]

end Text
end PushMachine
