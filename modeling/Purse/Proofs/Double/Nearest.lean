import Mathlib.Algebra.Order.Field.Power
import Mathlib.Algebra.Order.Field.Rat
import Mathlib.Algebra.Order.Floor.Ring
import Mathlib.Data.Rat.Floor
import Mathlib.Tactic.FieldSimp
import Mathlib.Tactic.Linarith
import Mathlib.Tactic.NormNum
import Mathlib.Tactic.Positivity
import Mathlib.Tactic.Ring
import Purse.Double

/-!
# The nearest double

A finite double stands for a rational number (`rat?`). `IsNearest` says that no other one is
nearer to a number, `Rounds` that moreover a tie goes to the one whose last bit is zero.

The double that `ofQuotient` writes for a quotient is the nearest one below the overflow
threshold (`rounds_ofQuotient`). The reason is that doubles of one exponent are the multiples
of a power of two, and that those of smaller exponents lie below all of them: a number between
`2 ^ 52` and `2 ^ 53` such units has no nearer neighbour than the nearest multiple. Away from
the least doubles that is within a part in `2 ^ 53` of the number (`IsNearest.error_le`).
-/

namespace Purse.Double

/-! ## What doubles stand for -/

/-- The number that a finite double stands for. -/
def rat? (x : Double) : Option ℚ :=
  match x.value with
  | .finite negative mantissa exponent =>
    some ((if negative then -1 else 1) * (mantissa * 2 ^ exponent))
  | _ => none

theorem rat?_eq_some {x : Double} {v : ℚ} (h : x.rat? = some v) :
    ∃ negative mantissa exponent, x.value = .finite negative mantissa exponent ∧
      v = (if negative then -1 else 1) * (mantissa * 2 ^ exponent) := by
  unfold rat? at h
  split at h
  · next negative mantissa exponent hvalue =>
    exact ⟨negative, mantissa, exponent, hvalue, (Option.some.inj h).symm⟩
  · cases h

/-- No finite double is nearer to the number. -/
def IsNearest (x : Double) (q : ℚ) : Prop :=
  ∃ v, x.rat? = some v ∧ ∀ (y : Double) (w : ℚ), y.rat? = some w → |v - q| ≤ |w - q|

/-- The nearest double to the number, and of two the one whose last bit is zero. -/
def Rounds (x : Double) (q : ℚ) : Prop :=
  ∃ v, x.rat? = some v ∧ ∀ (y : Double) (w : ℚ), y.rat? = some w →
    |v - q| ≤ |w - q| ∧ (|w - q| = |v - q| → w ≠ v → x.bits.toNat % 2 = 0)

theorem Rounds.isNearest {x : Double} {q : ℚ} (h : x.Rounds q) : x.IsNearest q := by
  obtain ⟨v, hv, hall⟩ := h
  exact ⟨v, hv, fun y w hw => (hall y w hw).1⟩

/-- The weight of the last bit of a mantissa; `place` counts exponents from the least one. -/
def unit (place : Nat) : ℚ :=
  2 ^ ((place : ℤ) - 1074)

theorem unit_pos (place : Nat) : 0 < unit place :=
  zpow_pos two_pos _

theorem unit_add (place d : Nat) : unit (place + d) = 2 ^ d * unit place := by
  have hexp : ((place + d : Nat) : ℤ) - 1074 = (d : ℤ) + ((place : ℤ) - 1074) := by omega
  rw [unit, unit, hexp, zpow_add₀ two_ne_zero, zpow_natCast]

/-- The number with this mantissa in this place. -/
def grid (mantissa place : Nat) : ℚ :=
  mantissa * unit place

/-- The overflow threshold, half a unit of the last place beyond the greatest finite double. -/
def threshold : ℚ :=
  (4 * leadingBit - 1) * unit 2044

theorem lt_threshold {q : ℚ} (h : q < UInt64.size) : q < threshold := by
  have hunit : (2 : ℚ) ^ (64 : ℤ) ≤ unit 2044 := zpow_le_zpow_right₀ one_le_two (by decide)
  have hone : (1 : ℚ) ≤ 4 * leadingBit - 1 := by norm_num
  calc q < UInt64.size := h
    _ = 2 ^ (64 : ℤ) := by norm_num
    _ ≤ unit 2044 := hunit
    _ ≤ threshold := le_mul_of_one_le_left (unit_pos 2044).le hone

theorem grid_nonneg (mantissa place : Nat) : 0 ≤ grid mantissa place :=
  mul_nonneg (Nat.cast_nonneg _) (unit_pos place).le

/-- Every finite double lies on one of the grids, with a mantissa of 53 bits. -/
theorem abs_of_rat? {x : Double} {v : ℚ} (h : x.rat? = some v) :
    ∃ mantissa place, mantissa < 2 * leadingBit ∧ |v| = grid mantissa place := by
  have habs : ∀ (negative : Bool) (a : ℚ), 0 ≤ a → |(if negative then -1 else 1) * a| = a := by
    intro negative a ha
    cases negative <;> simp [abs_of_nonneg ha]
  have hfraction : x.fraction < leadingBit := Nat.mod_lt _ (by decide)
  unfold rat? value at h
  by_cases htop : x.exponentField = 2047
  · rw [if_pos htop] at h
    by_cases hzero : x.fraction = 0
    · rw [if_pos hzero] at h
      cases h
    · rw [if_neg hzero] at h
      cases h
  · rw [if_neg htop] at h
    by_cases hfield : x.exponentField = 0
    · rw [if_pos hfield] at h
      cases h
      exact ⟨x.fraction, 0, by omega, habs _ _ (by positivity)⟩
    · rw [if_neg hfield] at h
      cases h
      refine ⟨leadingBit + x.fraction, x.exponentField - 1, by omega, ?_⟩
      have hplace : ((x.exponentField - 1 : Nat) : ℤ) - 1074 = (x.exponentField : ℤ) - 1075 := by
        omega
      rw [habs _ _ (by positivity), grid, unit, hplace]

/-- What a word without sign stands for, by its two fields. -/
theorem rat?_fields {field f : Nat} (hfield : field < 2047) (hf : f < leadingBit) :
    rat? ⟨UInt64.ofNat (field * leadingBit + f)⟩ =
      some (if field = 0 then grid f 0 else grid (leadingBit + f) (field - 1)) := by
  have hword : field * leadingBit + f < 2047 * leadingBit :=
    calc field * leadingBit + f < (field + 1) * leadingBit := by
          rw [Nat.succ_mul]
          exact Nat.add_lt_add_left hf _
      _ ≤ 2047 * leadingBit := Nat.mul_le_mul_right _ hfield
  have hbits : (UInt64.ofNat (field * leadingBit + f)).toNat = field * leadingBit + f :=
    UInt64.toNat_ofNat_of_lt (lt_trans hword (by decide))
  have hexponent : exponentField ⟨UInt64.ofNat (field * leadingBit + f)⟩ = field := by
    rw [exponentField, hbits, Nat.mul_comm, Nat.mul_add_div (by decide), Nat.div_eq_of_lt hf]
    exact Nat.mod_eq_of_lt (by omega)
  have hfraction : fraction ⟨UInt64.ofNat (field * leadingBit + f)⟩ = f := by
    rw [fraction, hbits]
    exact Nat.mul_add_mod_of_lt hf
  have hsign : isNegative ⟨UInt64.ofNat (field * leadingBit + f)⟩ = false := by
    rw [isNegative, hbits]
    exact decide_eq_false (not_le.mpr (lt_trans hword (by decide)))
  rw [rat?, value, hexponent, hfraction, hsign, if_neg (by omega)]
  by_cases hzero : field = 0
  · rw [if_pos hzero, if_pos hzero]
    simp [grid, unit]
  · have hplace : ((field - 1 : Nat) : ℤ) - 1074 = (field : ℤ) - 1075 := by omega
    rw [if_neg hzero, if_neg hzero, grid, unit, hplace]
    simp

/-- A word is read as the place of the grid that it was put together from, also where the
mantissa carries into the exponent. -/
theorem rat?_word {mantissa place : Nat} (hmantissa : mantissa ≤ 2 * leadingBit)
    (hplace : place = 0 ∨ leadingBit ≤ mantissa)
    (hword : place * leadingBit + mantissa < 2047 * leadingBit) :
    rat? ⟨UInt64.ofNat (place * leadingBit + mantissa)⟩ = some (grid mantissa place) := by
  have hfield : ∀ {field f : Nat}, place * leadingBit + mantissa = field * leadingBit + f →
      field < 2047 := by
    intro field f heq
    rw [heq] at hword
    exact lt_of_mul_lt_mul_right (lt_of_le_of_lt (Nat.le_add_right _ _) hword) (Nat.zero_le _)
  by_cases hsub : mantissa < leadingBit
  · have hzero : place = 0 := by omega
    subst hzero
    rw [rat?_fields (by decide) hsub, if_pos rfl]
  · by_cases hcarry : mantissa = 2 * leadingBit
    · -- all 53 bits have overflowed, which leaves the next exponent and no fraction
      have heq : place * leadingBit + mantissa = (place + 2) * leadingBit + 0 := by
        rw [hcarry, Nat.add_mul, Nat.add_zero]
      have hunit : unit (place + 2 - 1) = 2 ^ 1 * unit place := unit_add place 1
      rw [heq, rat?_fields (hfield heq) (by decide), if_neg (by omega), hcarry, grid, grid, hunit]
      push_cast
      ring_nf
    · have heq : place * leadingBit + mantissa =
          (place + 1) * leadingBit + (mantissa - leadingBit) := by
        rw [Nat.succ_mul]
        omega
      rw [heq, rat?_fields (hfield heq) (by omega), if_neg (by omega), Nat.add_sub_cancel,
        Nat.add_sub_cancel' (by omega)]

/-! ## Rounding to integers -/

/-- The nearest integer to a number, and of two the even one. -/
def NearestInt (m : Nat) (q : ℚ) : Prop :=
  |(m : ℚ) - q| ≤ 1 / 2 ∧ (|(m : ℚ) - q| = 1 / 2 → m % 2 = 0)

theorem nearestInt_roundEven (num : Nat) {den : Nat} (h : 0 < den) :
    NearestInt (roundEven num den) (num / den) := by
  have hden : (0 : ℚ) < den := by exact_mod_cast h
  have hsplit : (num : ℚ) / den = (num / den : Nat) + (num % den : Nat) / (den : ℚ) := by
    have hdiv : (num : ℚ) = den * (num / den : Nat) + (num % den : Nat) := by
      exact_mod_cast (Nat.div_add_mod num den).symm
    rw [eq_comm, ← sub_eq_zero]
    field_simp
    linarith
  have hrest : (0 : ℚ) ≤ (num % den : Nat) := Nat.cast_nonneg _
  have hfrac : (0 : ℚ) ≤ (num % den : Nat) / (den : ℚ) := by positivity
  unfold roundEven NearestInt
  rw [hsplit]
  dsimp only
  by_cases hlow : 2 * (num % den) < den
  · have hlt : (num % den : Nat) / (den : ℚ) < 1 / 2 := by
      rw [div_lt_div_iff₀ hden (by norm_num)]
      exact_mod_cast (by omega : num % den * 2 < 1 * den)
    rw [if_pos hlow, sub_add_cancel_left, abs_neg, abs_of_nonneg hfrac]
    exact ⟨hlt.le, fun heq => absurd heq hlt.ne⟩
  · rw [if_neg hlow]
    by_cases hhigh : den < 2 * (num % den)
    · have hgt : 1 / 2 < (num % den : Nat) / (den : ℚ) := by
        rw [div_lt_div_iff₀ (by norm_num) hden]
        exact_mod_cast (by omega : 1 * den < num % den * 2)
      have hle : (num % den : Nat) / (den : ℚ) < 1 := by
        rw [div_lt_one hden]
        exact_mod_cast Nat.mod_lt num h
      have habs : |((num / den + 1 : Nat) : ℚ) -
          ((num / den : Nat) + (num % den : Nat) / (den : ℚ))| =
          1 - (num % den : Nat) / (den : ℚ) := by
        rw [abs_of_nonneg] <;> push_cast <;> linarith
      rw [if_pos hhigh, habs]
      exact ⟨by linarith, fun heq => by linarith⟩
    · have hhalf : (num % den : Nat) / (den : ℚ) = 1 / 2 := by
        rw [div_eq_div_iff hden.ne' (by norm_num)]
        exact_mod_cast (by omega : num % den * 2 = 1 * den)
      rw [if_neg hhigh, hhalf]
      refine ⟨?_, fun _ => by omega⟩
      rcases Nat.mod_two_eq_zero_or_one (num / den) with hpar | hpar <;> rw [hpar] <;> push_cast <;>
        rw [abs_le] <;> constructor <;> linarith

/-- No other integer is nearer, and none is as near unless this one is even. -/
theorem NearestInt.le {m : Nat} {q : ℚ} (h : NearestInt m q) (j : ℤ) :
    |(m : ℚ) - q| ≤ |(j : ℚ) - q| ∧ (|(j : ℚ) - q| = |(m : ℚ) - q| → (j : ℚ) ≠ m → m % 2 = 0) := by
  by_cases hj : (j : ℚ) = m
  · rw [hj]
    exact ⟨le_refl _, fun _ hne => absurd rfl hne⟩
  · have hapart : (1 : ℚ) ≤ |(j : ℚ) - m| := by
      have hne : j ≠ (m : ℤ) := fun heq => hj (by exact_mod_cast congrArg (Int.cast : ℤ → ℚ) heq)
      exact_mod_cast Int.one_le_abs (sub_ne_zero.mpr hne)
    have htri := abs_sub_le (j : ℚ) q m
    rw [abs_sub_comm q] at htri
    obtain ⟨hhalf, heven⟩ := h
    exact ⟨by linarith, fun heq _ => heven (by linarith)⟩

/-! ## Quotients on the grid -/

theorem shifted_div (num : Nat) {den : Nat} (h : 0 < den) (shift : ℤ) :
    0 < (shifted num den shift).2 ∧
    ((shifted num den shift).1 : ℚ) / (shifted num den shift).2 = num / den * 2 ^ shift := by
  have hden : (den : ℚ) ≠ 0 := by exact_mod_cast h.ne'
  unfold shifted
  simp only [Nat.shiftLeft_eq]
  refine ⟨by positivity, ?_⟩
  obtain ⟨k, rfl | rfl⟩ := shift.eq_nat_or_neg
  · have hneg : (-(k : ℤ)).toNat = 0 := by omega
    rw [Int.toNat_natCast, hneg, zpow_natCast]
    push_cast
    field_simp
  · have hneg : (-(k : ℤ)).toNat = 0 := by omega
    rw [neg_neg, Int.toNat_natCast, hneg, zpow_neg, zpow_natCast]
    push_cast
    field_simp

/-- A quotient lies between two neighbouring powers of two. -/
theorem quotientLog_le {num den : Nat} (hnum : 0 < num) (hden : 0 < den) :
    (2 : ℚ) ^ quotientLog num den ≤ num / den ∧
      (num : ℚ) / den < 2 ^ (quotientLog num den + 1) := by
  have hd : (0 : ℚ) < den := by exact_mod_cast hden
  have hbounds : ∀ n : Nat, 0 < n →
      (2 : ℚ) ^ (n.log2 : ℤ) ≤ n ∧ (n : ℚ) < 2 ^ ((n.log2 : ℤ) + 1) := by
    intro n hn
    refine ⟨by exact_mod_cast Nat.log2_self_le hn.ne', ?_⟩
    exact_mod_cast Nat.lt_log2_self
  obtain ⟨hnlow, hnhigh⟩ := hbounds num hnum
  obtain ⟨hdlow, hdhigh⟩ := hbounds den hden
  have htwo : (2 : ℚ) ≠ 0 := by norm_num
  -- the logarithms of both parts leave two possibilities
  have hhigh : (num : ℚ) / den < 2 ^ ((num.log2 : ℤ) - den.log2 + 1) := by
    rw [div_lt_iff₀ hd]
    calc (num : ℚ) < 2 ^ ((num.log2 : ℤ) + 1) := hnhigh
      _ = 2 ^ ((num.log2 : ℤ) - den.log2 + 1) * 2 ^ (den.log2 : ℤ) := by
        rw [← zpow_add₀ htwo]
        congr 1
        ring
      _ ≤ 2 ^ ((num.log2 : ℤ) - den.log2 + 1) * den := by
        exact mul_le_mul_of_nonneg_left hdlow (by positivity)
  have hlow : (2 : ℚ) ^ ((num.log2 : ℤ) - den.log2 - 1) ≤ num / den := by
    rw [le_div_iff₀ hd]
    calc (2 : ℚ) ^ ((num.log2 : ℤ) - den.log2 - 1) * den
        ≤ 2 ^ ((num.log2 : ℤ) - den.log2 - 1) * 2 ^ ((den.log2 : ℤ) + 1) :=
          mul_le_mul_of_nonneg_left hdhigh.le (by positivity)
      _ = 2 ^ (num.log2 : ℤ) := by
        rw [← zpow_add₀ htwo]
        congr 1
        ring
      _ ≤ num := hnlow
  obtain ⟨hpos, hshift⟩ := shifted_div num hden (-((num.log2 : ℤ) - den.log2))
  unfold quotientLog
  dsimp only
  have hone : (shifted num den (-((num.log2 : ℤ) - den.log2))).2 ≤
        (shifted num den (-((num.log2 : ℤ) - den.log2))).1 ↔
      (2 : ℚ) ^ ((num.log2 : ℤ) - den.log2) ≤ num / den := by
    rw [← Nat.cast_le (α := ℚ), ← one_le_div₀ (by exact_mod_cast hpos), hshift, zpow_neg,
      ← div_eq_mul_inv, one_le_div₀ (by positivity)]
  split
  · next hle => exact ⟨hone.mp hle, hhigh⟩
  · next hlt =>
    rw [sub_add_cancel]
    exact ⟨hlow, not_le.mp fun hle => hlt (hone.mpr hle)⟩

/-- A number in the range of a place, and the nearest mantissa there. Only in the least place
does the range begin at zero. -/
structure Placed (q : ℚ) (mantissa place : Nat) : Prop where
  nearest : NearestInt mantissa (q / unit place)
  above : place = 0 ∨ leadingBit * unit place ≤ q
  below : q < 2 * leadingBit * unit place

namespace Placed

variable {q : ℚ} {mantissa place : Nat}

theorem mantissa_le (h : Placed q mantissa place) : mantissa ≤ 2 * leadingBit := by
  have hbelow : q / unit place < 2 * leadingBit := (div_lt_iff₀ (unit_pos place)).mpr h.below
  have hnear := (abs_le.mp h.nearest.1).2
  have hlt : (mantissa : ℚ) < (2 * leadingBit + 1 : Nat) := by
    push_cast
    linarith
  exact Nat.lt_succ_iff.mp (by exact_mod_cast hlt)

theorem le_mantissa (h : Placed q mantissa place) : place = 0 ∨ leadingBit ≤ mantissa := by
  refine h.above.imp_right fun habove => ?_
  have hle : (leadingBit : ℚ) ≤ q / unit place := (le_div_iff₀ (unit_pos place)).mpr habove
  have hnear := (abs_le.mp h.nearest.1).1
  have hlt : (leadingBit : ℚ) < (mantissa + 1 : Nat) := by
    push_cast
    linarith
  exact Nat.lt_succ_iff.mp (by exact_mod_cast hlt)

theorem abs_scaled (r : ℚ) : |r * unit place - q| = |r - q / unit place| * unit place := by
  have hu := unit_pos place
  calc |r * unit place - q| = |(r - q / unit place) * unit place| := by
        rw [sub_mul, div_mul_cancel₀ _ hu.ne']
    _ = |r - q / unit place| * unit place := by rw [abs_mul, abs_of_pos hu]

theorem error_le (h : Placed q mantissa place) : |grid mantissa place - q| ≤ unit place / 2 :=
  calc |grid mantissa place - q| = |mantissa - q / unit place| * unit place := abs_scaled _
    _ ≤ 1 / 2 * unit place := mul_le_mul_of_nonneg_right h.nearest.1 (unit_pos place).le
    _ = unit place / 2 := by ring

/-- No other multiple of the unit is nearer. -/
theorem le_multiple (h : Placed q mantissa place) (j : ℤ) :
    |grid mantissa place - q| ≤ |j * unit place - q| ∧
    (|j * unit place - q| = |grid mantissa place - q| → j * unit place ≠ grid mantissa place →
      mantissa % 2 = 0) := by
  have hu := unit_pos place
  obtain ⟨hle, htie⟩ := h.nearest.le j
  rw [grid, abs_scaled, abs_scaled]
  refine ⟨mul_le_mul_of_nonneg_right hle hu.le, fun heq hne => htie ?_ ?_⟩
  · exact mul_right_cancel₀ hu.ne' heq
  · rintro hj
    exact hne (by rw [hj])

/-- No double is nearer than the mantissa in this place, and none as near unless the mantissa
is even. -/
theorem le_double (h : Placed q mantissa place) (hq : 0 ≤ q) {y : Double} {w : ℚ}
    (hw : y.rat? = some w) :
    |grid mantissa place - q| ≤ |w - q| ∧
    (|w - q| = |grid mantissa place - q| → w ≠ grid mantissa place → mantissa % 2 = 0) := by
  have hstrict : |grid mantissa place - q| < |w - q| →
      |grid mantissa place - q| ≤ |w - q| ∧
      (|w - q| = |grid mantissa place - q| → w ≠ grid mantissa place → mantissa % 2 = 0) :=
    fun hlt => ⟨hlt.le, fun heq => absurd heq hlt.ne'⟩
  obtain ⟨m, p, hm, habs⟩ := abs_of_rat? hw
  rcases lt_or_ge w 0 with hneg | hpos
  · -- zero is nearer than what is negative
    refine hstrict (lt_of_le_of_lt (h.le_multiple 0).1 ?_)
    rw [Int.cast_zero, zero_mul, zero_sub, abs_neg, abs_of_nonneg hq, abs_sub_comm,
      abs_of_nonneg (by linarith)]
    linarith
  · rw [abs_of_nonneg hpos] at habs
    rcases Nat.lt_or_ge p place with hlower | hupper
    · -- the first mantissa of this place is nearer than what lies in a lower one
      obtain ⟨d, rfl⟩ : ∃ d, place = p + (d + 1) := ⟨place - p - 1, by omega⟩
      have habove := h.above.resolve_left (by omega)
      have hw : w < leadingBit * unit (p + (d + 1)) :=
        calc w = m * unit p := habs
          _ < 2 * leadingBit * unit p :=
            mul_lt_mul_of_pos_right (by exact_mod_cast hm) (unit_pos p)
          _ ≤ leadingBit * (2 ^ (d + 1) * unit p) := by
            have hone : (1 : ℚ) ≤ 2 ^ d := one_le_pow₀ one_le_two
            have hgap : 0 ≤ (2 ^ d - 1) * (2 * leadingBit * unit p) :=
              mul_nonneg (by linarith) (mul_nonneg (by positivity) (unit_pos p).le)
            rw [pow_succ]
            linarith
          _ = leadingBit * unit (p + (d + 1)) := by rw [unit_add]
      refine hstrict (lt_of_le_of_lt (h.le_multiple leadingBit).1 ?_)
      rw [Int.cast_natCast, abs_of_nonpos (by linarith), abs_of_nonpos (by linarith)]
      linarith
    · obtain ⟨d, rfl⟩ := Nat.exists_eq_add_of_le hupper
      have hmultiple : w = ((m * 2 ^ d : Nat) : ℤ) * unit place := by
        rw [habs, grid, unit_add]
        push_cast
        ring
      rw [hmultiple]
      exact h.le_multiple _

/-- Below the overflow threshold, half a unit from the end of the last place, the mantissa and
its place fit into a word. -/
theorem word_lt (h : Placed q mantissa place) (hq : q < threshold) :
    place * leadingBit + mantissa < 2047 * leadingBit := by
  have hmantissa := h.mantissa_le
  unfold threshold at hq
  have hhalf := unit_pos 2044
  have hlast : unit 2045 = 2 ^ 1 * unit 2044 := unit_add 2044 1
  rcases lt_trichotomy place 2045 with hless | rfl | hmore
  · have hpart := Nat.mul_le_mul_right leadingBit (by omega : place ≤ 2044)
    have hpos : 0 < leadingBit := by decide
    omega
  · have hbound : q / unit 2045 < 2 * leadingBit - 1 / 2 := by
      rw [div_lt_iff₀ (unit_pos _), hlast, pow_one]
      push_cast at hq ⊢
      linarith
    have hnear := (abs_le.mp h.nearest.1).2
    have hlt : (mantissa : ℚ) < (2 * leadingBit : Nat) := by
      push_cast at hbound ⊢
      linarith
    have hlt : mantissa < 2 * leadingBit := by exact_mod_cast hlt
    omega
  · exfalso
    have habove := h.above.resolve_left (by omega)
    obtain ⟨d, rfl⟩ : ∃ d, place = 2044 + (d + 2) := ⟨place - 2046, by omega⟩
    have hone : (1 : ℚ) ≤ 2 ^ d := one_le_pow₀ one_le_two
    have hgap : 0 ≤ (2 ^ d - 1) * (4 * leadingBit * unit 2044) :=
      mul_nonneg (by linarith) (by positivity)
    rw [unit_add, pow_add] at habove
    linarith

end Placed

/-- The double of a positive quotient is put together from its place and nearest mantissa. -/
theorem ofQuotient_placed {num den : Nat} (hnum : 0 < num) (hden : 0 < den) :
    ∃ mantissa place, Placed (num / den) mantissa place ∧
      ofQuotient num den =
        ⟨UInt64.ofNat (min (place * leadingBit + mantissa) (2047 * leadingBit))⟩ := by
  obtain ⟨hlow, hhigh⟩ := quotientLog_le hnum hden
  obtain ⟨exponent, hexponent⟩ :
      ∃ e, e = max (quotientLog num den - 52) (-1074) := ⟨_, rfl⟩
  obtain ⟨hpos, hshift⟩ := shifted_div num hden (-exponent)
  have hunit : unit (exponent + 1074).toNat = 2 ^ exponent := by
    rw [unit]
    congr 1
    omega
  refine ⟨roundEven (shifted num den (-exponent)).1 (shifted num den (-exponent)).2,
    (exponent + 1074).toNat, ⟨?_, ?_, ?_⟩, ?_⟩
  · have hnearest := nearestInt_roundEven (shifted num den (-exponent)).1 hpos
    rwa [hshift, zpow_neg, ← div_eq_mul_inv, ← hunit] at hnearest
  · rcases le_total (-1074) (quotientLog num den - 52) with hnormal | hsub
    · right
      rw [hunit]
      calc (leadingBit : ℚ) * 2 ^ exponent = 2 ^ (52 : ℤ) * 2 ^ exponent := by norm_num
        _ = 2 ^ quotientLog num den := by
          rw [← zpow_add₀ two_ne_zero, hexponent, max_eq_left hnormal]
          congr 1
          ring
        _ ≤ num / den := hlow
    · left
      omega
  · rw [hunit]
    calc (num : ℚ) / den < 2 ^ (quotientLog num den + 1) := hhigh
      _ ≤ 2 ^ (53 + exponent) := zpow_le_zpow_right₀ one_le_two (by omega)
      _ = 2 * leadingBit * 2 ^ exponent := by
        rw [zpow_add₀ two_ne_zero]
        norm_num
  · rw [ofQuotient, if_neg hnum.ne', hexponent]

theorem rat?_zero : rat? ⟨0⟩ = some 0 := by
  have hword := @rat?_word 0 0 (by decide) (.inl rfl) (by decide)
  rw [grid, Nat.cast_zero, zero_mul, zero_mul] at hword
  exact hword

/-- Below the overflow threshold a quotient is written as its place and nearest mantissa. -/
theorem rat?_ofQuotient {num den : Nat} (hnum : 0 < num) (hden : 0 < den)
    (hsmall : (num : ℚ) / den < threshold) :
    ∃ mantissa place, Placed (num / den) mantissa place ∧
      (ofQuotient num den).bits.toNat = place * leadingBit + mantissa ∧
      (ofQuotient num den).rat? = some (grid mantissa place) := by
  obtain ⟨mantissa, place, hplaced, hdouble⟩ := ofQuotient_placed hnum hden
  have hword := hplaced.word_lt hsmall
  rw [min_eq_left hword.le] at hdouble
  rw [hdouble]
  exact ⟨mantissa, place, hplaced, UInt64.toNat_ofNat_of_lt (lt_trans hword (by decide)),
    rat?_word hplaced.mantissa_le hplaced.le_mantissa hword⟩

/-! ## The nearest double -/

/-- Below the overflow threshold a quotient is rounded to the nearest double, a tie to the one
whose last bit is zero. -/
theorem rounds_ofQuotient {num den : Nat} (hden : 0 < den)
    (hsmall : (num : ℚ) / den < threshold) : (ofQuotient num den).Rounds (num / den) := by
  rcases Nat.eq_zero_or_pos num with rfl | hnum
  · rw [ofQuotient, if_pos rfl, Nat.cast_zero, zero_div]
    refine ⟨0, rat?_zero, fun y w _ => ⟨?_, fun _ _ => rfl⟩⟩
    rw [sub_zero, abs_zero]
    exact abs_nonneg _
  · obtain ⟨mantissa, place, hplaced, hbits, hvalue⟩ := rat?_ofQuotient hnum hden hsmall
    refine ⟨_, hvalue, fun y w hw => ?_⟩
    obtain ⟨hle, htie⟩ := hplaced.le_double (by positivity) hw
    refine ⟨hle, fun heq hne => ?_⟩
    have heven := htie heq hne
    have hdvd : 2 ∣ place * leadingBit := Dvd.dvd.mul_left (by decide) place
    rw [hbits]
    omega

namespace IsNearest

variable {x : Double} {q v : ℚ}

theorem le (h : x.IsNearest q) (hv : x.rat? = some v) {y : Double} {w : ℚ}
    (hw : y.rat? = some w) : |v - q| ≤ |w - q| := by
  obtain ⟨v', hv', hall⟩ := h
  rw [hv] at hv'
  cases hv'
  exact hall y w hw

theorem nonneg (h : x.IsNearest q) (hv : x.rat? = some v) (hq : 0 ≤ q) : 0 ≤ v := by
  by_contra hneg
  have hle := h.le hv rat?_zero
  rw [zero_sub, abs_neg, abs_of_nonneg hq, abs_of_neg (by linarith)] at hle
  linarith

theorem eq_zero (h : x.IsNearest 0) (hv : x.rat? = some v) : v = 0 := by
  have hle := h.le hv rat?_zero
  rw [sub_zero, sub_zero, abs_zero] at hle
  exact abs_eq_zero.mp (le_antisymm hle (abs_nonneg v))

/-- From the least normal number to the overflow threshold the error is at most a part in
`2 ^ 53`. -/
theorem error_le (h : x.IsNearest q) (hv : x.rat? = some v) (hnormal : leadingBit * unit 0 ≤ q)
    (hsmall : q < threshold) : |v - q| ≤ q / (2 * leadingBit) := by
  have hq : 0 < q := lt_of_lt_of_le (mul_pos (by norm_num) (unit_pos 0)) hnormal
  have hquotient : q = q.num.toNat / q.den := by
    have hnum : ((q.num.toNat : ℤ) : ℚ) = q.num := by
      rw [Int.toNat_of_nonneg (Rat.num_pos.mpr hq).le]
    rw [← Int.cast_natCast q.num.toNat, hnum, Rat.num_div_den]
  rw [hquotient] at hsmall
  obtain ⟨mantissa, place, hplaced, -, hvalue⟩ :=
    rat?_ofQuotient (Int.lt_toNat.mpr (Rat.num_pos.mpr hq)) q.den_pos hsmall
  rw [← hquotient] at hplaced
  have habove : leadingBit * unit place ≤ q := by
    rcases hplaced.above with rfl | habove
    · exact hnormal
    · exact habove
  calc |v - q| ≤ |grid mantissa place - q| := h.le hv hvalue
    _ ≤ unit place / 2 := hplaced.error_le
    _ = leadingBit * unit place / (2 * leadingBit) := by
      push_cast
      ring
    _ ≤ q / (2 * leadingBit) := div_le_div_of_nonneg_right habove (by norm_num)

end IsNearest

end Purse.Double
