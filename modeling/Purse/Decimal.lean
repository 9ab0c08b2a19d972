/-!
# Decimal digits

Numbers are written in base ten, without superfluous leading zeros
(`Nat.toDigits 10`), or filled with zeros on the left to a fixed width
(`padded`). Either way the digits read back as the number:
`value_padded` extends the library's fact about plain digits.
-/

namespace Purse.Decimal

/-- The digits of `n`, with zeros in front up to `width` characters. -/
def padded (width n : Nat) : List Char :=
  (Nat.toDigits 10 n).leftpad width '0'

/-- The value of a run of decimal digits, the most significant first. -/
def value (digits : List Char) : Nat :=
  Nat.ofDigitChars 10 digits 0

theorem value_toDigits (n : Nat) : value (Nat.toDigits 10 n) = n :=
  Nat.ofDigitChars_ten_toDigits

private theorem ofDigitChars_zeros (k : Nat) (ds : List Char) :
    Nat.ofDigitChars 10 (List.replicate k '0' ++ ds) 0 = Nat.ofDigitChars 10 ds 0 := by
  induction k with
  | zero => rfl
  | succ k ih => simpa [List.replicate_succ, Nat.ofDigitChars_cons] using ih

/-- Filling with zeros does not change the value. -/
theorem value_padded (width n : Nat) : value (padded width n) = n := by
  simp only [value, padded, List.leftpad, ofDigitChars_zeros]
  exact Nat.ofDigitChars_ten_toDigits

end Purse.Decimal
