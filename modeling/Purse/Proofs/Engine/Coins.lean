import Mathlib.Algebra.Order.Floor.Semifield
import Purse.Engine.Report
import Purse.Proofs.Double.Nearest

/-!
# Amounts out of doubles

Coins are reported in double precision, so that an amount has been rounded before it is read,
and is rounded again when it is multiplied by the units of a coin. Each time the error is at
most a part in `2 ^ 53`. Both together are less than half a unit up to `2 ^ 51` units and a
little less, which covers every amount that can ever exist, and then the last rounding finds the
amount again (`ofCoins_nearest`).
-/

namespace Purse

namespace Double

theorem roundHalfUp_eq (num : Nat) {den : Nat} (h : 0 < den) :
    roundHalfUp num den = ⌊(num : ℚ) / den + 1 / 2⌋₊ := by
  have hden : (den : ℚ) ≠ 0 := by exact_mod_cast h.ne'
  have hquotient : (num : ℚ) / den + 1 / 2 = ((2 * num + den : Nat) : ℚ) / (2 * den : Nat) := by
    push_cast
    field_simp
  rw [hquotient, Nat.floor_div_eq_div, roundHalfUp]

/-- What is not below zero has no sign, or is zero. -/
theorem rat?_nonneg {x : Double} {v : ℚ} (h : x.rat? = some v) (hv : 0 ≤ v) :
    ∃ negative mantissa exponent, x.value = .finite negative mantissa exponent ∧
      ¬(negative ∧ mantissa ≠ 0) ∧ v = mantissa * 2 ^ exponent := by
  obtain ⟨negative, mantissa, exponent, hvalue, rfl⟩ := rat?_eq_some h
  refine ⟨negative, mantissa, exponent, hvalue, ?_, ?_⟩
  · rintro ⟨rfl, hne⟩
    have hpos : (0 : ℚ) < mantissa * 2 ^ exponent :=
      mul_pos (by exact_mod_cast Nat.pos_of_ne_zero hne) (zpow_pos two_pos _)
    rw [if_pos rfl] at hv
    linarith
  · have hnonneg : (0 : ℚ) ≤ mantissa * 2 ^ exponent := by positivity
    cases negative
    · simp
    · rw [if_pos rfl] at hv ⊢
      linarith

end Double

namespace Amount

open Double (threshold leadingBit unit)

/-- The two roundings, one after the other. -/
theorem ofCoins_of_values {x : Double} {negative negative' : Bool}
    {mantissa mantissa' num den num' den' : Nat} {exponent exponent' : Int}
    (hvalue : x.value = .finite negative mantissa exponent)
    (hsign : ¬(negative ∧ mantissa ≠ 0))
    (hpair : Double.shifted (mantissa * unitsPerCoin) 1 exponent = (num, den))
    (hproduct : (Double.ofQuotient num den).value = .finite negative' mantissa' exponent')
    (hpair' : Double.shifted mantissa' 1 exponent' = (num', den')) :
    ofCoins x = if Double.roundHalfUp num' den' < UInt64.size
      then .ok ⟨UInt64.ofNat (Double.roundHalfUp num' den')⟩ else .error (.tooManyCoins x) := by
  unfold ofCoins
  split
  · next hx =>
    cases hvalue.symm.trans hx
    rw [if_neg hsign, hpair]
    split
    next heq =>
    cases heq
    split
    · next hfinite =>
      cases hproduct.symm.trans hfinite
      rw [hpair']
    · next hother => exact absurd hproduct (hother _ _ _)
  · next hother => exact absurd hvalue (hother _ _ _)

/-- The product before it is rounded. -/
theorem product_div (mantissa : Nat) (exponent : Int) :
    0 < (Double.shifted (mantissa * unitsPerCoin) 1 exponent).2 ∧
    ((Double.shifted (mantissa * unitsPerCoin) 1 exponent).1 : ℚ) /
        (Double.shifted (mantissa * unitsPerCoin) 1 exponent).2 =
      mantissa * 2 ^ exponent * unitsPerCoin := by
  obtain ⟨hden, hquotient⟩ := Double.shifted_div (mantissa * unitsPerCoin) Nat.one_pos exponent
  refine ⟨hden, hquotient.trans ?_⟩
  rw [Nat.cast_mul, Nat.cast_one]
  ring

/-- Coins that are not negative are multiplied, which rounds to the nearest double, and then
rounded to the nearest integer, halves upwards. -/
theorem ofCoins_eq {x : Double} {v : ℚ} (hx : x.rat? = some v) (hv : 0 ≤ v)
    (hsmall : v * unitsPerCoin < threshold) :
    ∃ (product : Double) (r : ℚ), product.Rounds (v * unitsPerCoin) ∧ product.rat? = some r ∧
      ofCoins x = if ⌊r + 1 / 2⌋₊ < UInt64.size then .ok ⟨UInt64.ofNat ⌊r + 1 / 2⌋₊⟩
        else .error (.tooManyCoins x) := by
  obtain ⟨negative, mantissa, exponent, hvalue, hsign, rfl⟩ := Double.rat?_nonneg hx hv
  rcases hpair : Double.shifted (mantissa * unitsPerCoin) 1 exponent with ⟨num, den⟩
  obtain ⟨hden, hquotient⟩ := product_div mantissa exponent
  rw [hpair] at hden hquotient
  have hrounds := Double.rounds_ofQuotient hden (lt_of_eq_of_lt hquotient hsmall)
  rw [hquotient] at hrounds
  obtain ⟨r, hr, -⟩ := hrounds.isNearest
  have hnonneg := hrounds.isNearest.nonneg hr (by positivity)
  refine ⟨_, r, hrounds, hr, ?_⟩
  obtain ⟨negative', mantissa', exponent', hvalue', -, rfl⟩ := Double.rat?_nonneg hr hnonneg
  rcases hpair' : Double.shifted mantissa' 1 exponent' with ⟨num', den'⟩
  obtain ⟨hden', hquotient'⟩ := Double.shifted_div mantissa' Nat.one_pos exponent'
  rw [hpair', Nat.cast_one, div_one] at hquotient'
  rw [hpair'] at hden'
  rw [ofCoins_of_values hvalue hsign hpair hvalue' hpair', Double.roundHalfUp_eq num' hden',
    hquotient']

/-- Two roundings lose less than half a unit. -/
theorem error_lt {n : Nat} {v r : ℚ} (hn : n ≤ 21000000 * unitsPerCoin)
    (hv : |v * unitsPerCoin - n| ≤ n / (2 * leadingBit))
    (hr : |r - v * unitsPerCoin| ≤ v * unitsPerCoin / (2 * leadingBit)) : |r - n| < 1 / 2 := by
  have hbound : (n : ℚ) ≤ 2100000000000000 := by exact_mod_cast hn
  have htri := abs_sub_le r (v * unitsPerCoin) n
  have hupper := (abs_le.mp hv).2
  push_cast at hv hr hupper
  linarith

/-- The least amount is far above the least normal number. -/
theorem normal_le : leadingBit * unit 0 ≤ 1 / (2 * unitsPerCoin : ℚ) := by
  have hunit : unit 0 ≤ 2 ^ (-100 : ℤ) :=
    zpow_le_zpow_right₀ one_le_two (by decide)
  calc leadingBit * unit 0 ≤ leadingBit * 2 ^ (-100 : ℤ) :=
        mul_le_mul_of_nonneg_left hunit (Nat.cast_nonneg _)
    _ ≤ 1 / (2 * unitsPerCoin : ℚ) := by
      unfold unitsPerCoin
      norm_num

section

variable {n : Nat} {x : Double} {v : ℚ}

theorem one_le_unitsPerCoin : (1 : ℚ) ≤ unitsPerCoin := by
  norm_num [unitsPerCoin]

/-- No amount of up to 21 million coins comes near the end of the range. -/
theorem coins_lt (hn : n ≤ 21000000 * unitsPerCoin) : (n : ℚ) / unitsPerCoin < threshold := by
  have hcoins : (n : ℚ) / unitsPerCoin ≤ n := div_le_self (Nat.cast_nonneg n) one_le_unitsPerCoin
  refine Double.lt_threshold (lt_of_le_of_lt hcoins ?_)
  exact_mod_cast lt_of_le_of_lt hn (by decide)

/-- What the first rounding loses, in units. -/
theorem coins_error (hn : n ≤ 21000000 * unitsPerCoin) (hpos : 0 < n)
    (hx : x.IsNearest (n / unitsPerCoin)) (hv : x.rat? = some v) :
    |v * unitsPerCoin - n| ≤ n / (2 * leadingBit) := by
  have hone := one_le_unitsPerCoin
  have hcoin : (0 : ℚ) < unitsPerCoin := by linarith
  have hle : (1 : ℚ) ≤ n := by exact_mod_cast hpos
  have hnormal : leadingBit * unit 0 ≤ (n : ℚ) / unitsPerCoin :=
    calc leadingBit * unit 0 ≤ 1 / (2 * unitsPerCoin : ℚ) := normal_le
      _ ≤ 1 / unitsPerCoin := one_div_le_one_div_of_le hcoin (by linarith)
      _ ≤ n / unitsPerCoin := div_le_div_of_nonneg_right hle hcoin.le
  calc |v * unitsPerCoin - n| = |(v - n / unitsPerCoin) * unitsPerCoin| := by
        rw [sub_mul, div_mul_cancel₀ _ hcoin.ne']
    _ = |v - n / unitsPerCoin| * unitsPerCoin := by rw [abs_mul, abs_of_pos hcoin]
    _ ≤ n / unitsPerCoin / (2 * leadingBit) * unitsPerCoin :=
      mul_le_mul_of_nonneg_right (hx.error_le hv hnormal (coins_lt hn)) hcoin.le
    _ = n / (2 * leadingBit) := by
      rw [div_right_comm, div_mul_cancel₀ _ hcoin.ne']

/-- The product is within the range, and what it is rounded to is nearest to the amount. -/
theorem product_near (hn : n ≤ 21000000 * unitsPerCoin) (hx : x.IsNearest (n / unitsPerCoin))
    (hv : x.rat? = some v) :
    v * unitsPerCoin < threshold ∧ ∀ (product : Double) (r : ℚ),
      product.IsNearest (v * unitsPerCoin) → product.rat? = some r → |r - n| < 1 / 2 := by
  rcases Nat.eq_zero_or_pos n with rfl | hpos
  · rw [Nat.cast_zero, zero_div] at hx
    rw [hx.eq_zero hv, zero_mul]
    refine ⟨Double.lt_threshold (by norm_num), fun product r hnearest hr => ?_⟩
    rw [hnearest.eq_zero hr]
    norm_num
  · have hone := one_le_unitsPerCoin
    have hle : (1 : ℚ) ≤ n := by exact_mod_cast hpos
    have hbound : (n : ℚ) ≤ 2100000000000000 := by exact_mod_cast hn
    have herror := coins_error hn hpos hx hv
    have hrange := abs_le.mp herror
    push_cast at hrange
    have hless : v * unitsPerCoin < threshold := by
      refine Double.lt_threshold (lt_of_le_of_lt (b := 4200000000000000) (by linarith) ?_)
      norm_num
    have hhalf : 1 / (2 * unitsPerCoin : ℚ) ≤ v * unitsPerCoin :=
      calc 1 / (2 * unitsPerCoin : ℚ) ≤ 1 / 2 :=
            one_div_le_one_div_of_le two_pos (by linarith)
        _ ≤ v * unitsPerCoin := by linarith
    exact ⟨hless, fun product r hnearest hr =>
      error_lt hn herror (hnearest.error_le hr (normal_le.trans hhalf) hless)⟩

end

/-- Every amount up to 21 million coins is found again in the double nearest to it. -/
theorem ofCoins_nearest {n : Nat} (hn : n ≤ 21000000 * unitsPerCoin) :
    (Double.ofQuotient n unitsPerCoin).Rounds (n / unitsPerCoin) ∧
    ∀ x : Double, x.IsNearest (n / unitsPerCoin) → (ofCoins x).map toNat = .ok n := by
  refine ⟨Double.rounds_ofQuotient (by decide) (coins_lt hn), fun x hx => ?_⟩
  obtain ⟨v, hv, -⟩ := id hx
  have hnonneg : 0 ≤ v := hx.nonneg hv (by positivity)
  obtain ⟨hless, hnear⟩ := product_near hn hx hv
  obtain ⟨product, r, hrounds, hr, heq⟩ := ofCoins_eq hv hnonneg hless
  have herror := abs_lt.mp (hnear product r hrounds.isNearest hr)
  have hpos : 0 ≤ r := hrounds.isNearest.nonneg hr (by positivity)
  have hfloor : ⌊r + 1 / 2⌋₊ = n := by
    rw [Nat.floor_eq_iff (by linarith)]
    constructor <;> linarith
  have hfits : n < UInt64.size := lt_of_le_of_lt hn (by decide)
  rw [heq, hfloor, if_pos hfits]
  exact congrArg Except.ok (UInt64.toNat_ofNat_of_lt hfits)

/-- The amount before the last, 20999999.99999999 coins, out of the bits of its double. -/
theorem ofCoins_penultimate :
    2099999999999999 ≤ 21000000 * unitsPerCoin ∧
    Double.ofQuotient 2099999999999999 unitsPerCoin = ⟨4716402354805538813⟩ ∧
    (ofCoins ⟨4716402354805538813⟩).map toNat = .ok 2099999999999999 := by
  have hn : 2099999999999999 ≤ 21000000 * unitsPerCoin := by decide
  have hbits : Double.ofQuotient 2099999999999999 unitsPerCoin = ⟨4716402354805538813⟩ := by
    decide +kernel
  obtain ⟨hrounds, hfound⟩ := ofCoins_nearest hn
  rw [hbits] at hrounds
  exact ⟨hn, hbits, hfound _ hrounds.isNearest⟩

end Amount

end Purse
