import Purse.Proofs.Double.Nearest

/-!
# Doubles in the order of their words

A word without sign and the next one stand for neighbours on one grid, so that doubles without
sign are ordered as their words are (`rat?_lt`). Of two neighbours one word is odd. So a number
that is not negative cannot be rounded to two different numbers, although of a tie both would be
equally near (`Rounds.unique`): if both words were even, there would be a third one between them.

From the overflow threshold on, what is written for a quotient is infinite
(`value_ofQuotient_overflow`).
-/

namespace Purse.Double

/-- The double with this word. -/
def ofWord (n : Nat) : Double :=
  ⟨UInt64.ofNat n⟩

/-- The word of infinity; those of the finite numbers without sign come before it. -/
abbrev infinityWord : Nat := 2047 * leadingBit

/-! ## Neighbours -/

/-- A word as a place of a grid and a mantissa that can still be counted up there. -/
theorem word_parts (n : Nat) : ∃ mantissa place, n = place * leadingBit + mantissa ∧
    mantissa < 2 * leadingBit ∧ (place = 0 ∨ leadingBit ≤ mantissa) := by
  by_cases h : n < 2 * leadingBit
  · exact ⟨n, 0, by omega, h, .inl rfl⟩
  · refine ⟨leadingBit + n % leadingBit, n / leadingBit - 1, ?_⟩
    unfold leadingBit at h ⊢
    omega

variable {n m : Nat} {v w : ℚ}

theorem rat?_ofWord (h : n < infinityWord) : ∃ v, (ofWord n).rat? = some v ∧ 0 ≤ v := by
  obtain ⟨mantissa, place, rfl, hmantissa, hplace⟩ := word_parts n
  exact ⟨_, rat?_word hmantissa.le hplace h, grid_nonneg mantissa place⟩

/-- The next word stands for a greater number. -/
theorem rat?_succ (h : n + 1 < infinityWord) (hv : (ofWord n).rat? = some v)
    (hw : (ofWord (n + 1)).rat? = some w) : v < w := by
  obtain ⟨mantissa, place, rfl, hmantissa, hplace⟩ := word_parts n
  rw [Nat.add_assoc] at h hw
  have hv' := rat?_word hmantissa.le hplace
    (lt_of_le_of_lt (Nat.add_le_add_left (Nat.le_succ mantissa) _) h)
  have hw' := rat?_word hmantissa (hplace.imp_right Nat.le_succ_of_le) h
  cases hv.symm.trans hv'
  cases hw.symm.trans hw'
  apply mul_lt_mul_of_pos_right _ (unit_pos place)
  exact_mod_cast Nat.lt_succ_self mantissa

/-- Words without sign are ordered like what they stand for. -/
theorem rat?_lt (hlt : n < m) (hm : m < infinityWord) (hv : (ofWord n).rat? = some v)
    (hw : (ofWord m).rat? = some w) : v < w := by
  induction m, hlt using Nat.le_induction generalizing w with
  | base => exact rat?_succ hm hv hw
  | succ m _ ih =>
    have hless : m < infinityWord := lt_trans (Nat.lt_succ_self m) hm
    obtain ⟨u, hu, -⟩ := rat?_ofWord hless
    calc v < u := ih hless hu
      _ < w := rat?_succ hm hu hw

/-- The fields of a finite double, and what they stand for. -/
theorem fields_of_rat? {x : Double} (h : x.rat? = some v) : x.exponentField ≠ 2047 ∧
    v = (if x.isNegative then -1 else 1) * if x.exponentField = 0 then grid x.fraction 0
      else grid (leadingBit + x.fraction) (x.exponentField - 1) := by
  unfold rat? value at h
  by_cases htop : x.exponentField = 2047
  · rw [if_pos htop] at h
    split at h
    · next heq => split at heq <;> cases heq
    · cases h
  · rw [if_neg htop] at h
    refine ⟨htop, ?_⟩
    by_cases hfield : x.exponentField = 0
    · rw [if_pos hfield] at h ⊢
      exact (Option.some.inj h).symm
    · have hplace : ((x.exponentField - 1 : Nat) : ℤ) - 1074 = (x.exponentField : ℤ) - 1075 := by
        omega
      rw [if_neg hfield] at h ⊢
      rw [grid, unit, hplace]
      exact (Option.some.inj h).symm

/-- What is not below zero is the number of a word without sign, which ends in the same bit. -/
theorem exists_word {x : Double} (h : x.rat? = some v) (hv : 0 ≤ v) :
    ∃ n < infinityWord, (ofWord n).rat? = some v ∧ n % 2 = x.bits.toNat % 2 := by
  obtain ⟨hfinite, hfields⟩ := fields_of_rat? h
  have hsize : x.bits.toNat < 4096 * leadingBit := x.bits.toNat_lt
  have hfield : x.exponentField = x.bits.toNat / leadingBit % 2048 := rfl
  have hfraction : x.fraction = x.bits.toNat % leadingBit := rfl
  by_cases hsign : x.bits.toNat < 2048 * leadingBit
  · refine ⟨x.bits.toNat, ?_, ?_, rfl⟩
    · unfold infinityWord leadingBit at *
      omega
    · rwa [ofWord, UInt64.ofNat_toNat]
  · -- with a sign there is only zero
    have hnegative : x.isNegative = true := decide_eq_true (not_lt.mp hsign)
    have hmantissa : ∀ {mantissa place : Nat}, v = -1 * grid mantissa place → mantissa = 0 := by
      intro mantissa place heq
      by_contra hne
      have hpos : 0 < grid mantissa place :=
        mul_pos (by exact_mod_cast Nat.pos_of_ne_zero hne) (unit_pos place)
      linarith
    rw [if_pos hnegative] at hfields
    by_cases hzero : x.exponentField = 0
    · rw [if_pos hzero] at hfields
      have hnone := hmantissa hfields
      have heven : x.bits.toNat % 2 = 0 := by
        unfold leadingBit at *
        omega
      rw [hnone, grid, Nat.cast_zero, zero_mul, mul_zero] at hfields
      rw [hfields]
      exact ⟨0, by decide, rat?_zero, heven.symm⟩
    · rw [if_neg hzero] at hfields
      have hnone := hmantissa hfields
      have hpos : 0 < leadingBit := by decide
      omega

/-! ## Rounding is unique -/

/-- A double is on the same side of a number as what the number is rounded to. -/
theorem IsNearest.le_of_le {x y : Double} {q : ℚ} (h : x.IsNearest q) (hv : x.rat? = some v)
    (hw : y.rat? = some w) (hle : w ≤ q) : w ≤ v := by
  by_contra hlt
  have hnear := h.le hv hw
  rw [abs_of_neg (by linarith), abs_of_nonpos (by linarith)] at hnear
  linarith

theorem Rounds.le {x y : Double} {q : ℚ} (hx : x.Rounds q) (hy : y.Rounds q) (hq : 0 ≤ q)
    (hv : x.rat? = some v) (hw : y.rat? = some w) : w ≤ v := by
  by_contra hle
  have hlt := lt_of_not_ge hle
  have hsame : |w - q| = |v - q| :=
    le_antisymm (hy.isNearest.le hw hv) (hx.isNearest.le hv hw)
  have hmiddle : q = (v + w) / 2 := by
    rcases abs_eq_abs.mp hsame with heq | heq <;> linarith
  have heven : x.bits.toNat % 2 = 0 := by
    obtain ⟨v', hv', hall⟩ := hx
    cases hv.symm.trans hv'
    exact (hall y w hw).2 hsame hlt.ne'
  have heven' : y.bits.toNat % 2 = 0 := by
    obtain ⟨w', hw', hall⟩ := hy
    cases hw.symm.trans hw'
    exact (hall x v hv).2 hsame.symm hlt.ne
  obtain ⟨n, hn, hnv, hnbit⟩ := exists_word hv (hx.isNearest.nonneg hv hq)
  obtain ⟨m, hm, hmw, hmbit⟩ := exists_word hw (hy.isNearest.nonneg hw hq)
  have hnm : n < m := by
    by_contra hge
    rcases Nat.eq_or_lt_of_le (Nat.ge_of_not_lt hge) with rfl | hmn
    · cases hnv.symm.trans hmw
      exact lt_irrefl v hlt
    · exact absurd (rat?_lt hmn hn hmw hnv) hlt.asymm
  -- both words are even, so the word after the first one lies between them
  obtain ⟨u, hu, -⟩ := rat?_ofWord (n := n + 1) (by omega)
  have hvu : v < u := rat?_lt (Nat.lt_succ_self n) (by omega) hnv hu
  have huw : u < w := rat?_lt (by omega) hm hu hmw
  have hnear := hx.isNearest.le hv hu
  rw [hmiddle, abs_of_neg (by linarith)] at hnear
  rcases abs_cases (u - (v + w) / 2) with ⟨heq, -⟩ | ⟨heq, -⟩ <;> linarith

/-- A number that is not negative is rounded to one number only. -/
theorem Rounds.unique {x y : Double} {q : ℚ} (hx : x.Rounds q) (hy : y.Rounds q) (hq : 0 ≤ q)
    (hv : x.rat? = some v) (hw : y.rat? = some w) : v = w :=
  le_antisymm (hy.le hx hq hw hv) (hx.le hy hq hv hw)

/-! ## Overflow -/

/-- From the overflow threshold on, a place and its nearest mantissa do not fit into a word. -/
theorem Placed.le_word {q : ℚ} {mantissa place : Nat} (h : Placed q mantissa place)
    (hq : threshold ≤ q) : infinityWord ≤ place * leadingBit + mantissa := by
  have hlast := unit_pos 2044
  unfold threshold at hq
  have hplace : 2045 ≤ place := by
    by_contra hless
    obtain ⟨d, hd⟩ : ∃ d, 2044 = place + d := ⟨2044 - place, by omega⟩
    have hone : (1 : ℚ) ≤ 2 ^ d := one_le_pow₀ one_le_two
    have hunit : unit place ≤ unit 2044 := by
      rw [hd, unit_add]
      exact le_mul_of_one_le_left (unit_pos place).le hone
    have hbelow := h.below
    push_cast at hq hbelow
    linarith
  rcases Nat.eq_or_lt_of_le hplace with rfl | hmore
  · -- half a unit below the end of the place the tie goes to the end, the word before is odd
    have hdouble : unit 2045 = 2 ^ 1 * unit 2044 := unit_add 2044 1
    have hscaled : 2 * leadingBit - 1 / 2 ≤ q / unit 2045 := by
      rw [le_div_iff₀ (unit_pos 2045), hdouble]
      push_cast at hq ⊢
      linarith
    by_contra hless
    have hmantissa : mantissa + 1 ≤ 2 * leadingBit := by
      unfold infinityWord at hless
      omega
    have hcast : ((mantissa + 1 : Nat) : ℚ) ≤ (2 * leadingBit : Nat) := Nat.cast_le.mpr hmantissa
    obtain ⟨hhalf, heven⟩ := h.nearest
    have hnear := (abs_le.mp hhalf).1
    push_cast at hscaled hcast
    have hlow : (mantissa : ℚ) - q / unit 2045 = -(1 / 2) := by linarith
    have htie : |(mantissa : ℚ) - q / unit 2045| = 1 / 2 := by
      rw [hlow, abs_neg, abs_of_pos one_half_pos]
    have hodd : mantissa + 1 = 2 * leadingBit := by
      refine Nat.le_antisymm hmantissa (Nat.cast_le (α := ℚ).mp ?_)
      push_cast
      linarith
    have hzero := heven htie
    omega
  · have hmantissa := h.le_mantissa.resolve_left (by omega)
    calc infinityWord = 2046 * leadingBit + leadingBit := rfl
      _ ≤ place * leadingBit + mantissa :=
        Nat.add_le_add (Nat.mul_le_mul_right leadingBit hmore) hmantissa

theorem value_ofQuotient_overflow {num den : Nat} (hden : 0 < den)
    (hlarge : threshold ≤ (num : ℚ) / den) : (ofQuotient num den).value = .infinite false := by
  have hnum : 0 < num := by
    by_contra hzero
    have hpos : 0 < threshold := lt_threshold (by norm_num)
    rw [Nat.eq_zero_of_not_pos hzero, Nat.cast_zero, zero_div] at hlarge
    linarith
  obtain ⟨mantissa, place, hplaced, hdouble⟩ := ofQuotient_placed hnum hden
  rw [min_eq_right (hplaced.le_word hlarge)] at hdouble
  rw [hdouble]
  decide

/-- Two to the power of 64 is a double. -/
theorem rat?_size : (ofWord (1086 * leadingBit + leadingBit)).rat? = some (UInt64.size : ℚ) := by
  rw [ofWord, rat?_word (by decide) (.inr (le_refl _)) (by decide), grid, unit]
  norm_num

end Purse.Double
