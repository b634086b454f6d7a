/-!
# Words of bits

A word is 64 bits; bit `k` has weight `2 ^ k`. A set of small numbers is kept as a word, and this
module holds what a bitmap asks of one: a single bit, a test, a count, and the positions of the
set bits.

The positions are found by taking the lowest set bit off until nothing is left, so a word costs as
many steps as it has bits set. A word has at most 64 of them, which bounds the search.
-/

namespace ColumnStore

/-- Sixty-four bits. -/
abbrev Word := UInt64

namespace Word

/-- Bits in a word. -/
def width : Nat := 64

/-- The word whose only set bit is `k`, for `k < 64`. -/
def bit (k : Nat) : Word := 1 <<< UInt64.ofNat k

/-- Whether bit `k` is set, for `k < 64`. -/
def has (w : Word) (k : Nat) : Bool := (w >>> UInt64.ofNat k) &&& 1 == 1

/-- The word with every bit set. -/
def full : Word := 0xffffffffffffffff

/-- The word with exactly the bits below `n` set, for `n < 64`. -/
def below (n : Nat) : Word := bit n - 1

/-- How many of the bits below `n` are set. -/
def countBelow (w : Word) : Nat → Nat
  | 0 => 0
  | n + 1 => countBelow w n + if w.has n then 1 else 0

/-- How many bits are set. -/
def count (w : Word) : Nat := if w = 0 then 0 else countBelow w width

/-- Position of the lowest set bit of a word that is not zero: negating a word keeps that bit and
    turns every higher one over. -/
def lowest (w : Word) : Nat := (w &&& (0 - w)).log2.toNat

/-- The word without its lowest set bit. -/
def dropLowest (w : Word) : Word := w &&& (w - 1)

/-- Positions of at most `fuel` set bits, lowest first. -/
def positionsUpTo : (fuel : Nat) → Word → List Nat
  | 0, _ => []
  | fuel + 1, w => if w = 0 then [] else lowest w :: positionsUpTo fuel (dropLowest w)

/-- Positions of the set bits, lowest first. -/
def positions (w : Word) : List Nat := positionsUpTo width w

end Word

end ColumnStore
