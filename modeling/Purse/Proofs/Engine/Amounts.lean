import Purse.Proofs.Double.Order
import Purse.Proofs.Engine.Balances
import Purse.Proofs.Engine.Coins

/-!
# Which reported amounts are taken over

Coins are taken over if they are a number, not negative, and come to less than `2 ^ 64` units.
What they come to does not depend on how doubles are computed: the number is multiplied by the
units of a coin, the product is rounded to the nearest double and that one to the nearest integer
(`Double.CountsAs`). This is one number of units at most, and `ofCoins` finds it (`ofCoins_ok_iff`).
Signed units have to be nonnegative. Every amount is taken over or refused for a reason of its
own kind (`toAmount_ok_iff`, `toAmount_error_iff`).
-/

namespace Purse

namespace Double

/-- The double is a number of coins, none or more. -/
def IsCoins (x : Double) : Prop :=
  ∃ v, x.rat? = some v ∧ 0 ≤ v

/-- These coins come to so many units: the product is rounded to the nearest double, then to the
nearest integer, halves upwards. -/
def CountsAs (x : Double) (units : Nat) : Prop :=
  ∃ (v : ℚ) (product : Double) (r : ℚ), x.rat? = some v ∧ 0 ≤ v ∧
    product.Rounds (v * Amount.unitsPerCoin) ∧ product.rat? = some r ∧ units = ⌊r + 1 / 2⌋₊

variable {x : Double} {units : Nat}

theorem CountsAs.unique {n : Nat} (h : x.CountsAs units) (h' : x.CountsAs n) : units = n := by
  obtain ⟨v, product, r, hv, hpos, hrounds, hr, rfl⟩ := h
  obtain ⟨v', product', r', hv', -, hrounds', hr', rfl⟩ := h'
  cases hv.symm.trans hv'
  rw [hrounds.unique hrounds' (by positivity) hr hr']

/-- What fits into 64 bits is far from the overflow threshold, since `2 ^ 64` is a double. -/
theorem lt_threshold_of_rounds {product : Double} {q r : ℚ} (h : product.Rounds q)
    (hr : product.rat? = some r) (hfits : ⌊r + 1 / 2⌋₊ < UInt64.size) : q < threshold := by
  refine lt_threshold (lt_of_not_ge fun hle => ?_)
  have hlarge := h.isNearest.le_of_le hr rat?_size hle
  have hfloor : UInt64.size ≤ ⌊r + 1 / 2⌋₊ :=
    Nat.le_floor (hlarge.trans (le_add_of_nonneg_right (by norm_num)))
  omega

end Double

namespace Amount

open Double (threshold)

variable {x : Double}

theorem ofCoins_of_not_isCoins (h : ¬x.IsCoins) : ofCoins x = .error (.invalidCoins x) := by
  unfold ofCoins
  split
  · next negative mantissa exponent hvalue =>
    refine if_pos ?_
    by_contra hsign
    have hrat : x.rat? =
        some ((if negative then -1 else 1) * ((mantissa : ℚ) * 2 ^ exponent)) := by
      rw [Double.rat?, hvalue]
    refine h ⟨_, hrat, ?_⟩
    cases negative with
    | false =>
      rw [if_neg Bool.false_ne_true, one_mul]
      positivity
    | true =>
      have hzero : mantissa = 0 := by
        by_contra hne
        exact hsign ⟨rfl, hne⟩
      rw [hzero, Nat.cast_zero, zero_mul, mul_zero]
  · rfl

/-- A product that is infinite is no number of units. -/
theorem ofCoins_overflow {v : ℚ} (hx : x.rat? = some v) (hv : 0 ≤ v)
    (hlarge : threshold ≤ v * unitsPerCoin) : ofCoins x = .error (.tooManyCoins x) := by
  obtain ⟨negative, mantissa, exponent, hvalue, hsign, rfl⟩ := Double.rat?_nonneg hx hv
  obtain ⟨hden, hquotient⟩ := product_div mantissa exponent
  rw [← hquotient] at hlarge
  have hinfinite := Double.value_ofQuotient_overflow hden hlarge
  unfold ofCoins
  split
  · next hfinite =>
    cases hvalue.symm.trans hfinite
    rw [if_neg hsign]
    split
    next heq =>
    rw [heq] at hinfinite
    split
    · next hproduct => cases hinfinite.symm.trans hproduct
    · rfl
  · next hother => exact absurd hvalue (hother _ _ _)

/-- Coins that are not refused as such are the units they come to, or are too many. -/
theorem ofCoins_of_isCoins (h : x.IsCoins) :
    (∃ a, ofCoins x = .ok a ∧ x.CountsAs a.toNat) ∨
    (ofCoins x = .error (.tooManyCoins x) ∧ ∀ units, x.CountsAs units → UInt64.size ≤ units) := by
  obtain ⟨v, hx, hv⟩ := h
  by_cases hsmall : v * unitsPerCoin < threshold
  · obtain ⟨product, r, hrounds, hr, heq⟩ := ofCoins_eq hx hv hsmall
    have hcounts : x.CountsAs ⌊r + 1 / 2⌋₊ := ⟨v, product, r, hx, hv, hrounds, hr, rfl⟩
    by_cases hfits : ⌊r + 1 / 2⌋₊ < UInt64.size
    · left
      have hunits : toNat ⟨UInt64.ofNat ⌊r + 1 / 2⌋₊⟩ = ⌊r + 1 / 2⌋₊ :=
        UInt64.toNat_ofNat_of_lt hfits
      rw [if_pos hfits] at heq
      refine ⟨_, heq, ?_⟩
      rwa [hunits]
    · right
      rw [if_neg hfits] at heq
      refine ⟨heq, fun units hunits => ?_⟩
      rw [hunits.unique hcounts]
      exact not_lt.mp hfits
  · right
    refine ⟨ofCoins_overflow hx hv (not_lt.mp hsmall), fun units hunits => ?_⟩
    obtain ⟨v', product, r, hx', -, hrounds, hr, rfl⟩ := hunits
    cases hx.symm.trans hx'
    by_contra hless
    exact hsmall (Double.lt_threshold_of_rounds hrounds hr (not_le.mp hless))

theorem toNat_injective {a b : Amount} (h : a.toNat = b.toNat) : a = b :=
  congrArg Amount.mk (UInt64.toNat_inj.mp h)

theorem ofCoins_ok_iff {a : Amount} : ofCoins x = .ok a ↔ x.CountsAs a.toNat := by
  constructor
  · intro hok
    by_cases hcoins : x.IsCoins
    · rcases ofCoins_of_isCoins hcoins with ⟨b, hb, hcounts⟩ | ⟨hbad, -⟩
      · cases hok.symm.trans hb
        exact hcounts
      · cases hok.symm.trans hbad
    · cases hok.symm.trans (ofCoins_of_not_isCoins hcoins)
  · intro hcounts
    obtain ⟨v, -, -, hx, hv, -⟩ := id hcounts
    rcases ofCoins_of_isCoins ⟨v, hx, hv⟩ with ⟨b, hb, hcounts'⟩ | ⟨-, hlarge⟩
    · rw [hb, toNat_injective (hcounts'.unique hcounts)]
    · have hsize := a.units.toNat_lt
      exact absurd (hlarge _ hcounts) (not_le.mpr hsize)

theorem ofCoins_error_iff {bad : BadAnswer} :
    ofCoins x = .error bad ↔ (¬x.IsCoins ∧ bad = .invalidCoins x) ∨
      (x.IsCoins ∧ (∀ units, x.CountsAs units → UInt64.size ≤ units) ∧ bad = .tooManyCoins x) := by
  by_cases hcoins : x.IsCoins
  · rcases ofCoins_of_isCoins hcoins with ⟨b, hb, hcounts⟩ | ⟨hbad, hlarge⟩
    · rw [hb]
      constructor
      · intro heq
        cases heq
      · rintro (⟨hnone, -⟩ | ⟨-, hall, -⟩)
        · exact absurd hcoins hnone
        · exact absurd (hall _ hcounts) (not_le.mpr b.units.toNat_lt)
    · rw [hbad]
      constructor
      · intro heq
        cases heq
        exact .inr ⟨hcoins, hlarge, rfl⟩
      · rintro (⟨hnone, -⟩ | ⟨-, -, rfl⟩)
        · exact absurd hcoins hnone
        · rfl
  · rw [ofCoins_of_not_isCoins hcoins]
    constructor
    · intro heq
      cases heq
      exact .inl ⟨hcoins, rfl⟩
    · rintro (⟨-, rfl⟩ | ⟨hsome, -⟩)
      · rfl
      · exact absurd hsome hcoins

end Amount

/-! ## Amounts of either asset -/

namespace ReportedAmount

/-- What a reported amount comes to. -/
def CountsAs : ReportedAmount → Nat → Prop
  | coins value, units => value.CountsAs units
  | signed reported, units => (units : Int) = reported.toInt

/-- Coins that are a number, not negative and below `2 ^ 64` units after rounding; signed units
that are not negative. -/
def Representable : ReportedAmount → Prop
  | coins value => value.IsCoins ∧ ∃ units, value.CountsAs units ∧ units < UInt64.size
  | signed reported => 0 ≤ reported.toInt

/-- Why an amount is refused. -/
inductive Refused : ReportedAmount → BadAnswer → Prop
  | invalid {value : Double} (h : ¬value.IsCoins) : Refused (coins value) (.invalidCoins value)
  | tooMany {value : Double} (h : value.IsCoins)
      (hlarge : ∀ units, value.CountsAs units → UInt64.size ≤ units) :
      Refused (coins value) (.tooManyCoins value)
  | negative {reported : Int64} (h : reported.toInt < 0) :
      Refused (signed reported) (.negative .outputAmount reported)

variable {r : ReportedAmount}

theorem toAmount_ok_iff {a : Amount} : r.toAmount = .ok a ↔ r.CountsAs a.toNat := by
  cases r with
  | coins value => exact Amount.ofCoins_ok_iff
  | signed reported => exact Amount.ofSigned_ok_iff

theorem toAmount_error_iff {bad : BadAnswer} : r.toAmount = .error bad ↔ r.Refused bad := by
  cases r with
  | coins value =>
    refine Amount.ofCoins_error_iff.trans ⟨?_, ?_⟩
    · rintro (⟨hnone, rfl⟩ | ⟨hsome, hlarge, rfl⟩)
      · exact .invalid hnone
      · exact .tooMany hsome hlarge
    · intro h
      cases h with
      | invalid hnone => exact .inl ⟨hnone, rfl⟩
      | tooMany hsome hlarge => exact .inr ⟨hsome, hlarge, rfl⟩
  | signed reported =>
    refine Amount.ofSigned_error_iff.trans ⟨?_, ?_⟩
    · rintro ⟨hneg, rfl⟩
      exact .negative hneg
    · intro h
      cases h with
      | negative hneg => exact ⟨hneg, rfl⟩

theorem representable_iff : r.Representable ↔ ∃ a, r.toAmount = .ok a := by
  constructor
  · intro h
    cases hr : r.toAmount with
    | ok a => exact ⟨a, rfl⟩
    | error bad =>
      cases toAmount_error_iff.mp hr with
      | invalid hnone => exact absurd h.1 hnone
      | tooMany _ hlarge =>
        obtain ⟨-, units, hcounts, hless⟩ := h
        exact absurd (hlarge units hcounts) (not_le.mpr hless)
      | negative hneg => exact absurd h (not_le.mpr hneg)
  · rintro ⟨a, ha⟩
    have hcounts := toAmount_ok_iff.mp ha
    cases r with
    | coins value =>
      obtain ⟨v, -, -, hv, hpos, -⟩ := id hcounts
      exact ⟨⟨v, hv, hpos⟩, a.toNat, hcounts, a.units.toNat_lt⟩
    | signed reported =>
      have heq : (a.toNat : Int) = reported.toInt := hcounts
      change 0 ≤ reported.toInt
      omega

end ReportedAmount

end Purse
