/-!
# Double-precision numbers

A number is kept as its 64 bits, sign first, so that storing and reading a not-a-number loses
nothing. Arithmetic and comparison are those of binary64; where the result is not a number the bits
follow one rule: the first operand that is not a number, made quiet, else the default one.

`Binary64.ofRatio` rounds a quotient of natural numbers to the nearest double, ties to even.
Conversions from integers, sums, products and quotients go through it: each is exact and then
rounded once.
-/

namespace ColumnStore

/-- A binary64 number as its bits. -/
structure Binary64 where
  bits : UInt64
deriving DecidableEq, Inhabited

namespace Binary64

/-- The number as the machine's own. -/
def toFloat (x : Binary64) : Float := Float.ofBits x.bits

/-- The bits of a machine number. -/
def ofFloat (f : Float) : Binary64 := ⟨f.toBits⟩

/-- Positive zero. -/
def zero : Binary64 := ⟨0⟩

/-- One. -/
def one : Binary64 := ⟨0x3ff0000000000000⟩

/-- Positive infinity. -/
def infinity : Binary64 := ⟨0x7ff0000000000000⟩

/-- The bits without the sign. -/
def magnitude (x : Binary64) : UInt64 := x.bits &&& 0x7fffffffffffffff

/-- Not a number: the exponent is full and the fraction is not zero. -/
def isNaN (x : Binary64) : Bool := infinity.bits < x.magnitude

/-- One of the two infinities. -/
def isInfinite (x : Binary64) : Bool := x.magnitude == infinity.bits

/-- Whether the sign is set. -/
def isNegative (x : Binary64) : Bool := x.bits != x.magnitude

/-- The number with its sign turned over. -/
def neg (x : Binary64) : Binary64 := ⟨x.bits ^^^ 0x8000000000000000⟩

/-- A not-a-number with its quiet bit set. -/
def quiet (x : Binary64) : Binary64 := ⟨x.bits ||| 0x0008000000000000⟩

/-- What an operation without an answer gives: quiet, sign set, nothing else. -/
def invalid : Binary64 := ⟨0xfff8000000000000⟩

/-- Numeric equality: the two zeros are equal, and what is not a number differs from everything. -/
def eq (x y : Binary64) : Bool := x.toFloat == y.toFloat

/-- Numeric order; false when either side is not a number. -/
def lt (x y : Binary64) : Bool := x.toFloat < y.toFloat

/-- Numeric order or equality; false when either side is not a number. -/
def le (x y : Binary64) : Bool := x.toFloat ≤ y.toFloat

/-- `num / den` as a whole number, a half going to the even neighbour. -/
def roundQuotient (num den : Nat) : Nat :=
  let whole := num / den
  let twice := 2 * (num % den)
  if twice < den then whole
  else if den < twice then whole + 1
  else whole + whole % 2

/-- `num / (den * 2 ^ e)` as a quotient of natural numbers. -/
def scaled (num den : Nat) (e : Int) : Nat × Nat :=
  if 0 ≤ e then (num, den <<< e.toNat) else (num <<< (-e).toNat, den)

/-- The exponent `e` for which `num / (den * 2 ^ e)` has 53 binary digits, or `-1074` where doubles
    are evenly spaced. -/
def unitExponent (num den : Nat) : Int :=
  let guess : Int := (num.log2 : Int) - (den.log2 : Int) - 52
  let small := let (n, d) := scaled num den guess; n < d <<< 52
  max (if small then guess - 1 else guess) (-1074)

/-- The double of `fraction` units of `2 ^ e`; infinity past the largest double. Where the fraction
    has 54 digits after rounding, it carries into the exponent field, which is the right double
    then. -/
def ofFraction (fraction : Nat) (e : Int) : Binary64 :=
  let field := if fraction < 1 <<< 52 then fraction else ((e + 1074).toNat <<< 52) + fraction
  if infinity.bits.toNat ≤ field then infinity else ⟨UInt64.ofNat field⟩

/-- The double nearest to `num / den`, a tie going to the even fraction; infinity past the largest
    double. -/
def ofRatio (num den : Nat) : Binary64 :=
  if num = 0 then zero
  else
    let e := unitExponent num den
    let (n, d) := scaled num den e
    ofFraction (roundQuotient n d) e

/-- The double nearest to a natural number. -/
def ofNat (n : Nat) : Binary64 := ofRatio n 1

/-- The double nearest to an integer. -/
def ofInt : Int → Binary64
  | .ofNat n => ofNat n
  | .negSucc n => (ofNat (n + 1)).neg

/-- The exponent field. -/
def exponent (x : Binary64) : Nat := x.magnitude.toNat >>> 52

/-- The fraction with its leading one, which a double with exponent field 0 does not have. -/
def significand (x : Binary64) : Nat :=
  let fraction := x.magnitude.toNat % (1 <<< 52)
  if x.exponent = 0 then fraction else (1 <<< 52) + fraction

/-- The size of a finite number as a quotient of natural numbers. A double with exponent field `e`
    has its significand in units of `2 ^ (e - 1075)`; field 0 has the units of field 1. -/
def toRatio (x : Binary64) : Nat × Nat :=
  let e := max x.exponent 1
  if 1075 ≤ e then (x.significand <<< (e - 1075), 1) else (x.significand, 1 <<< (1075 - e))

/-- How many times the least positive double, `2 ^ -1074`, makes one. -/
def unitsInOne : Nat := 1 <<< 1074

/-- A finite number in units of the least positive double. -/
def units (x : Binary64) : Int :=
  let size : Int := (x.significand <<< (max x.exponent 1 - 1) : Nat)
  if x.isNegative then -size else size

/-- The double nearest to a whole number of these units. -/
def ofUnits (n : Int) : Binary64 :=
  let size := ofRatio n.natAbs unitsInOne
  if n < 0 then size.neg else size

/-- The sum. One that comes to nothing is positive zero, unless both operands are negative zeros. -/
def add (x y : Binary64) : Binary64 :=
  if x.isNaN then x.quiet
  else if y.isNaN then y.quiet
  else if x.isInfinite then if y == x.neg then invalid else x
  else if y.isInfinite then y
  else if x == zero.neg && y == zero.neg then x
  else ofUnits (x.units + y.units)

/-- The product of two finite numbers that are not negative. -/
def mul (x y : Binary64) : Binary64 :=
  let (a, b) := x.toRatio
  let (c, d) := y.toRatio
  ofRatio (a * c) (b * d)

/-- The quotient of two finite numbers that are not negative, the second not zero. -/
def div (x y : Binary64) : Binary64 :=
  let (a, b) := x.toRatio
  let (c, d) := y.toRatio
  ofRatio (a * d) (b * c)

end Binary64

end ColumnStore
