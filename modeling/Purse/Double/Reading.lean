import Purse.Double

/-!
# Which decimal numbers a double can take

A decimal number is taken up digit by digit. Only its leading digits count, as many
as fit into 64 bits; the others merely hold the place. The number is worth the
product of two doubles, the one nearest to those digits and the one nearest to the
power of ten, and it is out of range where that product is infinite. Near the
greatest double this is stricter than rounding the exact number once, or laxer,
depending on the digits.
-/

namespace Purse.Double

/-- A natural number to 53 binary digits, a tie going to the even neighbour. -/
def nearest (n : Nat) : Nat :=
  let shift := n.log2 - 52
  roundEven n (1 <<< shift) <<< shift

/-- A number with as many digits behind it as fit into 64 bits, and how many digits
are left over. -/
def takeUp (n : Nat) : List Char → Nat × Nat
  | [] => (n, 0)
  | c :: rest =>
    let longer := n * 10 + (c.toNat - '0'.toNat)
    if longer < UInt64.size then takeUp longer rest else (n, rest.length + 1)

/-- Whether `digits · 10 ^ power` is finite in double precision. -/
def isFinite (digits : Nat) (power : Int) : Bool :=
  digits = 0 || power ≤ 0 ||
    power ≤ 308 && nearest (nearest digits * nearest (Nat.pow 10 power.toNat)) < 1 <<< 1024

/-- Whether the number `whole.fraction · 10 ^ exponent` is within range. Digits of
the whole part that are left over raise the power; after that the fraction has
another try. -/
def inRange (whole fraction : List Char) (exponent : Int) : Bool :=
  let (digits, skipped) := takeUp 0 whole
  let (digits, left) := takeUp digits fraction
  isFinite digits (exponent + skipped - (fraction.length - left : Nat))

end Purse.Double
