import Purse.Double

/-!
# The shortest decimal text of a double

Every real number between the two midpoints to a double's neighbours rounds to
that double, the midpoints themselves exactly when its mantissa is even. The
text shows the fewest decimal digits that fall into this interval and, of two
such texts, the nearer one; an exact tie goes up. It is always positional, never
with an exponent.
-/

namespace Purse.Double

/-- The reals that round to a positive double, in quarters of its last place:
the double is `4 · mantissa` of them, and each quarter is worth `2 ^ unit`. -/
structure Interval where
  low : Nat
  centre : Nat
  high : Nat
  closed : Bool
  unit : Int
  deriving Repr

/-- Below a power of two the neighbours lie twice as close. -/
def interval (mantissa : Nat) (exponent : Int) : Interval where
  low := if mantissa = leadingBit ∧ -1074 < exponent then 4 * mantissa - 1 else 4 * mantissa - 2
  centre := 4 * mantissa
  high := 4 * mantissa + 2
  closed := mantissa % 2 = 0
  unit := exponent - 2

/-- A positive number written as `digits · 10 ^ place`. -/
structure Digits where
  digits : Nat
  place : Int
  deriving DecidableEq, Repr

namespace Interval

/-- The factor that turns `quarters` into a whole number at decimal place `place`,
and the one that does so for the decimal grid. -/
def scales (i : Interval) (place : Int) : Nat × Nat :=
  (Nat.pow 10 (-place).toNat <<< i.unit.toNat, Nat.pow 10 place.toNat <<< (-i.unit).toNat)

/-- Whether `point · 10 ^ place` rounds to the double. -/
def holds (i : Interval) (place : Int) (point : Nat) : Bool :=
  let (quarter, grid) := i.scales place
  if i.closed then i.low * quarter ≤ point * grid && point * grid ≤ i.high * quarter
  else i.low * quarter < point * grid && point * grid < i.high * quarter

/-- The nearest point of the grid at `place` that rounds to the double. -/
def hit? (i : Interval) (place : Int) : Option Nat :=
  let (quarter, grid) := i.scales place
  let below := i.centre * quarter / grid
  let rest := i.centre * quarter % grid
  let order := if 2 * rest < grid then [below, below + 1] else [below + 1, below]
  order.find? (i.holds place)

/-- The coarsest hit among the grids from `place` down, at most `tries` of them. -/
def search (i : Interval) (place : Int) : Nat → Digits
  | 0 => ⟨i.centre * (i.scales place).1 / (i.scales place).2, place⟩
  | tries + 1 =>
    match i.hit? place with
    | some point => ⟨point, place⟩
    | none => i.search (place - 1) tries

/-- A place whose unit is at least as large as the double. -/
def topPlace (i : Interval) : Int :=
  let (numerator, denominator) := shifted i.centre 1 i.unit
  if denominator ≤ numerator then (Nat.toDigits 10 (numerator / denominator)).length
  else 1 - ((Nat.toDigits 10 (denominator / numerator)).length : Int)

/-- Seventeen digits always suffice, and the first place may still be too coarse. -/
def shortest (i : Interval) : Digits :=
  i.search i.topPlace 20

end Interval

/-- Positional text: zeros are filled in on either side of the digits. -/
def Digits.text (d : Digits) : List Char :=
  let ds := Nat.toDigits 10 d.digits
  match d.place with
  | .ofNat zeros => ds ++ List.replicate zeros '0'
  | .negSucc k =>
    let ds := ds.leftpad (k + 2) '0'
    ds.take (ds.length - (k + 1)) ++ '.' :: ds.drop (ds.length - (k + 1))

/-- The text of a double, as messages show it. -/
def text (x : Double) : String :=
  match x.value with
  | .nan => "NaN"
  | .infinite negative => if negative then "-inf" else "inf"
  | .finite negative mantissa exponent =>
    let digits := if mantissa = 0 then ['0'] else (interval mantissa exponent).shortest.text
    String.ofList (if negative then '-' :: digits else digits)

end Purse.Double
