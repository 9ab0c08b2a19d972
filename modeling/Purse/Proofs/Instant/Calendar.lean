import Purse.Instant

/-!
# Days and civil dates

Every day number is the day of the date that `Civil.ofDay` finds for it, and the calendar has
that date. An era of 400 years is taken apart into centuries, groups of four years, years and
days, all from the first of March (`EraDay`). In these parts a leap day is the 366th day of a
fourth year, of the last group only in the last century, and the quotients that `ofDay` works
with are what they should be.

Main statements: `Civil.exists?_ofDay`, `Civil.day_ofDay`.
-/

namespace Purse.Civil

/-- A day of an era of 400 years that begins in March. -/
structure EraDay where
  century : Int
  fours : Int
  single : Int
  dayOfYear : Int
  century_le : 0 ≤ century ∧ century ≤ 3
  fours_le : 0 ≤ fours ∧ fours ≤ 24
  single_le : 0 ≤ single ∧ single ≤ 3
  dayOfYear_le : 0 ≤ dayOfYear ∧ dayOfYear ≤ 365
  leapDay : dayOfYear = 365 → single = 3 ∧ (fours = 24 → century = 3)

namespace EraDay

/-- The number of the day in its era. -/
def number (d : EraDay) : Int :=
  36524 * d.century + 1461 * d.fours + 365 * d.single + d.dayOfYear

/-- The number of its year in the era. -/
def year (d : EraDay) : Int :=
  100 * d.century + 4 * d.fours + d.single

theorem exists_number {n : Int} (h : 0 ≤ n ∧ n < 146097) : ∃ d : EraDay, d.number = n := by
  -- the last day would begin a fifth century, and the last of four years a fifth year
  obtain ⟨century, hcentury⟩ : ∃ c, c = min (n / 36524) 3 := ⟨_, rfl⟩
  obtain ⟨inCentury, hin⟩ : ∃ m, m = n - 36524 * century := ⟨_, rfl⟩
  obtain ⟨single, hsingle⟩ : ∃ s, s = min (inCentury % 1461 / 365) 3 := ⟨_, rfl⟩
  refine ⟨⟨century, inCentury / 1461, single, inCentury % 1461 - 365 * single, ?_, ?_, ?_, ?_, ?_⟩,
    ?_⟩
  case refine_6 =>
    show 36524 * century + 1461 * (inCentury / 1461) + 365 * single +
      (inCentury % 1461 - 365 * single) = n
    omega
  all_goals omega

theorem number_le (d : EraDay) : 0 ≤ d.number ∧ d.number < 146097 := by
  obtain ⟨c, q, s, t, hc, hq, hs, ht, hleap⟩ := d
  unfold number
  dsimp only
  omega

/-- The quotients give the year. -/
theorem year_eq (d : EraDay) :
    (d.number - d.number / 1460 + d.number / 36524 - d.number / 146096) / 365 = d.year := by
  obtain ⟨c, q, s, t, hc, hq, hs, ht, hleap⟩ := d
  unfold number year
  dsimp only
  obtain ⟨n, hn⟩ : ∃ n, n = 36524 * c + 1461 * q + 365 * s + t := ⟨_, rfl⟩
  obtain ⟨rest, hrest⟩ : ∃ x, x = 24 * c + q + 365 * s + t := ⟨_, rfl⟩
  have hcentury : n / 36524 - n / 146096 = c := by
    by_cases hlast : 1461 * q + 365 * s + t = 36524
    · have hthree : c = 3 := by omega
      omega
    · have hin : n / 36524 = c := by omega
      omega
  have hfours : n / 1460 = 25 * c + q + rest / 1460 := by omega
  rw [← hn]
  omega

theorem year_le (d : EraDay) : 0 ≤ d.year ∧ d.year ≤ 399 := by
  have hcentury := d.century_le
  have hfours := d.fours_le
  have hsingle := d.single_le
  unfold year
  omega

/-- What is left after the days of the years before is the day of the year. -/
theorem dayOfYear_eq (d : EraDay) :
    d.number - (365 * d.year + d.year / 4 - d.year / 100) = d.dayOfYear := by
  obtain ⟨c, q, s, t, hc, hq, hs, ht, hleap⟩ := d
  unfold number year
  dsimp only
  omega

/-- A 366th day is there only where the next January belongs to a leap year. -/
theorem isLeapYear (d : EraDay) (h : d.dayOfYear = 365) (era : Int) :
    Civil.isLeapYear (d.year + era * 400 + 1) = true := by
  obtain ⟨hsingle, hlast⟩ := d.leapDay h
  obtain ⟨c, q, s, t, hc, hq, hs, ht, hleap⟩ := d
  unfold year Civil.isLeapYear
  dsimp only at *
  simp only [Bool.and_eq_true, Bool.or_eq_true, decide_eq_true_eq]
  omega

end EraDay

/-- The parts of a day number. -/
theorem exists_eraDay (n : Int) :
    ∃ (era : Int) (d : EraDay), n = era * 146097 + d.number - 719468 := by
  obtain ⟨d, hd⟩ := @EraDay.exists_number ((n + 719468) % 146097) (by omega)
  exact ⟨(n + 719468) / 146097, d, by omega⟩

/-- The date of a day, month by month from March. -/
theorem ofDay_eq (era : Int) (d : EraDay) :
    ofDay (era * 146097 + d.number - 719468) =
      if (5 * d.dayOfYear + 2) / 153 < 10 then
        ⟨d.year + era * 400, (5 * d.dayOfYear + 2) / 153 + 3,
          d.dayOfYear - (153 * ((5 * d.dayOfYear + 2) / 153) + 2) / 5 + 1⟩
      else
        ⟨d.year + era * 400 + 1, (5 * d.dayOfYear + 2) / 153 - 9,
          d.dayOfYear - (153 * ((5 * d.dayOfYear + 2) / 153) + 2) / 5 + 1⟩ := by
  have hin := d.number_le
  have hera : (era * 146097 + d.number - 719468 + 719468) / 146097 = era := by omega
  have hrest : (era * 146097 + d.number - 719468 + 719468) % 146097 = d.number := by omega
  unfold ofDay
  dsimp only
  rw [hera, hrest, d.year_eq, d.dayOfYear_eq]

theorem bounds_of_exists? {c : Civil} (h : c.exists? = true) :
    (1 ≤ c.month ∧ c.month ≤ 12) ∧ 1 ≤ c.date ∧ c.date ≤ 31 := by
  simp only [exists?, Bool.and_eq_true, decide_eq_true_eq] at h
  obtain ⟨⟨⟨hmonth, hmonth'⟩, hdate⟩, hdate'⟩ := h
  have hlength : monthLength c.year c.month ≤ 31 := by
    unfold monthLength
    repeat' split
    all_goals omega
  exact ⟨⟨hmonth, hmonth'⟩, hdate, by omega⟩

/-- The calendar has the date of every day. -/
theorem exists?_ofDay (n : Int) : (ofDay n).exists? = true := by
  obtain ⟨era, d, rfl⟩ := exists_eraDay n
  have hday := d.dayOfYear_le
  rw [ofDay_eq]
  by_cases hmarch : (5 * d.dayOfYear + 2) / 153 < 10
  · rw [if_pos hmarch]
    simp only [exists?, monthLength, Bool.and_eq_true, decide_eq_true_eq]
    rw [if_neg (by omega)]
    split <;> omega
  · rw [if_neg hmarch]
    simp only [exists?, monthLength, Bool.and_eq_true, decide_eq_true_eq]
    by_cases hleap : d.dayOfYear = 365
    · rw [d.isLeapYear hleap, hleap, if_pos (by decide), if_pos rfl]
      decide
    · split
      · split <;> omega
      · rw [if_neg (by omega)]
        omega

/-- The date of a day tells the day. -/
theorem day_ofDay (n : Int) : (ofDay n).day = n := by
  obtain ⟨era, d, rfl⟩ := exists_eraDay n
  have hday := d.dayOfYear_le
  have hyear := d.year_le
  have hdayOfYear := d.dayOfYear_eq
  have hera : (d.year + era * 400) / 400 = era := by omega
  have hrest : (d.year + era * 400) % 400 = d.year := by omega
  rw [ofDay_eq]
  by_cases hmarch : (5 * d.dayOfYear + 2) / 153 < 10
  · rw [if_pos hmarch]
    unfold day
    dsimp only
    rw [if_neg (by omega), if_neg (by omega), hera, hrest]
    omega
  · rw [if_neg hmarch]
    unfold day
    dsimp only
    rw [if_pos (by omega), if_pos (by omega), Int.add_sub_cancel, hera, hrest]
    omega

end Purse.Civil
