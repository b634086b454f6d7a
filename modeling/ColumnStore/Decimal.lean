import ColumnStore.Binary64

/-!
# Decimal numbers

A number in decimal digits is read in two steps, and neither looks at it again as a whole.

First the digits give a significand below `2 ^ 64` and an exponent of ten. The significand takes up
digits from the front as long as it stays below the limit. From the first digit that finds no room
the rest of the whole part is dropped and counted in the exponent; the fraction is tried in the same
way after it, and what is dropped there counts for nothing. Nothing is rounded here.

Then the double nearest to the significand is multiplied or divided by the double nearest to the
power of ten, in two divisions where one power of ten is not enough. Each operation rounds to the
nearest double. Up to 15 digits and powers up to `10 ^ 22` there is one rounding only and the result
is the double nearest to the number; past that it may be a neighbour of it.
-/

namespace ColumnStore

/-- The number `significand * 10 ^ exponent`. -/
structure Decimal where
  significand : Nat
  exponent : Int
deriving DecidableEq, Inhabited

namespace Decimal

/-- What a significand stays below. -/
def limit : Nat := 1 <<< 64

/-- Takes up digits as long as there is room, and gives the significand and the digits from the
    first that finds none. -/
def takeUp : (significand : Nat) → (digits : List Nat) → Nat × List Nat
  | significand, [] => (significand, [])
  | significand, digit :: rest =>
    if significand * 10 + digit < limit then takeUp (significand * 10 + digit) rest
    else (significand, digit :: rest)

/-- The decimal of the digits in front of the point, those behind it and a power of ten. -/
def ofDigits (whole fraction : List Nat) (exponent : Int) : Decimal :=
  let (significand, dropped) := takeUp 0 whole
  let (significand, unused) := takeUp significand fraction
  ⟨significand, exponent + dropped.length - (fraction.length - unused.length : Nat)⟩

/-- The greatest `k` for which `10 ^ k` is a double. -/
def maxPower : Nat := 308

/-- The double nearest to `10 ^ k`. -/
def powerOfTen (k : Nat) : Binary64 := .ofNat (Nat.pow 10 k)

/-- The double that the decimal is read as; none if it is past the largest one. Below
    `10 ^ (-2 * maxPower)` nothing is left of a significand. -/
def toBinary64? (d : Decimal) : Option Binary64 :=
  let x := Binary64.ofNat d.significand
  let k := d.exponent.natAbs
  if d.significand = 0 then some .zero
  else if 0 ≤ d.exponent then
    if maxPower < k then none
    else
      let product := x.mul (powerOfTen k)
      if product.isInfinite then none else some product
  else if k ≤ maxPower then some (x.div (powerOfTen k))
  else if k ≤ 2 * maxPower then
    some ((x.div (powerOfTen maxPower)).div (powerOfTen (k - maxPower)))
  else some .zero

end Decimal

end ColumnStore
