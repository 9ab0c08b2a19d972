import Purse.Decimal

/-!
# Amounts of coin

An amount counts the smallest unit of its asset, a hundred millionth of a coin,
in 64 bits. Sums and differences that do not fit are refused, and `coinText`
writes an amount in whole coins with eight decimals.
-/

namespace Purse

/-- A number of smallest units. -/
structure Amount where
  units : UInt64
  deriving DecidableEq, Repr, Inhabited

namespace Amount

/-- Smallest units in one coin. -/
def unitsPerCoin : Nat := 100000000

def zero : Amount := ⟨0⟩

/-- The amount as a natural number of units. -/
def toNat (a : Amount) : Nat := a.units.toNat

instance : Ord Amount := ⟨fun a b => compare a.units b.units⟩

/-- The sum, unless it needs more than 64 bits. -/
def checkedAdd (a b : Amount) : Option Amount :=
  if a.toNat + b.toNat < UInt64.size then some ⟨a.units + b.units⟩ else none

/-- The difference, unless it is negative. -/
def checkedSub (a b : Amount) : Option Amount :=
  if b.units ≤ a.units then some ⟨a.units - b.units⟩ else none

/-- The characters of `coinText`: whole coins, a point, eight decimals. -/
def coinChars (a : Amount) : List Char :=
  Nat.toDigits 10 (a.toNat / unitsPerCoin) ++ '.' :: Decimal.padded 8 (a.toNat % unitsPerCoin)

/-- The amount in whole coins with eight decimals, as in `0.00250000`. -/
def coinText (a : Amount) : String :=
  String.ofList a.coinChars

end Amount

end Purse
