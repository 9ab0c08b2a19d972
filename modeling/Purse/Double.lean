/-!
# Double precision numbers as exact fractions

A double is its 64 bits. `value` reads them as an exact fraction `m · 2^q` with
a sign, `ofQuotient` writes the double nearest to a quotient of natural numbers,
a tie going to the even neighbour. A product of doubles is the nearest double to
the exact product, so everything here is arithmetic on natural numbers.
-/

namespace Purse

/-- The bits of a double precision number. -/
structure Double where
  bits : UInt64
  deriving DecidableEq, Repr, Inhabited

namespace Double

/-- What the bits stand for; a finite number is `mantissa · 2 ^ exponent`. -/
inductive Value where
  | nan
  | infinite (negative : Bool)
  | finite (negative : Bool) (mantissa : Nat) (exponent : Int)
  deriving DecidableEq, Repr

/-- The weight of the leading bit in a mantissa, `2 ^ 52`. -/
abbrev leadingBit : Nat := 4503599627370496

/-- The field that places the leading bit, between 0 and 2047. -/
def exponentField (x : Double) : Nat :=
  x.bits.toNat / leadingBit % 2048

/-- The 52 bits behind the leading one. -/
def fraction (x : Double) : Nat :=
  x.bits.toNat % leadingBit

/-- Whether the sign bit is set. -/
def isNegative (x : Double) : Bool :=
  2048 * leadingBit ≤ x.bits.toNat

/-- Field 2047 is kept for infinity and for what is no number; field 0 has no
hidden leading bit. -/
def value (x : Double) : Value :=
  if x.exponentField = 2047 then
    if x.fraction = 0 then .infinite x.isNegative else .nan
  else if x.exponentField = 0 then .finite x.isNegative x.fraction (-1074)
  else .finite x.isNegative (leadingBit + x.fraction) ((x.exponentField : Int) - 1075)

/-! ## Rounding quotients -/

/-- `num / den` to the nearest integer, a tie to the even one. -/
def roundEven (num den : Nat) : Nat :=
  let floor := num / den
  let rest := num % den
  if 2 * rest < den then floor
  else if den < 2 * rest then floor + 1
  else floor + floor % 2

/-- `num / den` to the nearest integer, a tie upwards. -/
def roundHalfUp (num den : Nat) : Nat :=
  (2 * num + den) / (2 * den)

/-- Numerator and denominator of `num / den · 2 ^ shift`. -/
def shifted (num den : Nat) (shift : Int) : Nat × Nat :=
  (num <<< shift.toNat, den <<< (-shift).toNat)

/-- The binary logarithm of a positive quotient, rounded down. -/
def quotientLog (num den : Nat) : Int :=
  let guess := (num.log2 : Int) - (den.log2 : Int)
  let (a, b) := shifted num den (-guess)
  if b ≤ a then guess else guess - 1

/-- The double nearest to `num / den`: 53 binary digits, fewer below the least
normal number, infinity from half a unit above the greatest finite one. A
mantissa that rounds up to `2 ^ 53` carries into the exponent field. -/
def ofQuotient (num den : Nat) : Double :=
  if num = 0 then ⟨0⟩
  else
    let exponent := max (quotientLog num den - 52) (-1074)
    let (a, b) := shifted num den (-exponent)
    let word := (exponent + 1074).toNat * leadingBit + roundEven a b
    ⟨UInt64.ofNat (min word (2047 * leadingBit))⟩

end Double

end Purse
