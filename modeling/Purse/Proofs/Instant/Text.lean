import Mathlib.Algebra.Group.Nat.Defs
import Purse.Instant.Text
import Purse.Proofs.Decimal
import Purse.Proofs.Instant.Calendar

/-!
# The text of an instant is read back

`Reads` says what a reader makes of the front of a text, and what it leaves. Of the many texts
that the readers take, only those that are written matter here: a number is as wide as it is
written (`reads_field`), a fraction of three, six or nine digits is filled up to nine
(`reads_nanoseconds`), and the date is one that the calendar has.

Main statement: `ofText?_text`, of leap seconds too.
-/

namespace Purse

namespace Instant

variable {α β : Type} {x : Reader α} {text more rest : List Char}

/-! ## Reading -/

/-- The reader takes this off the front of the text. -/
def Reads (x : Reader α) (text : List Char) (a : α) (rest : List Char) : Prop :=
  x.run text = some (a, rest)

theorem Reads.bind {f : α → Reader β} {a : α} {b : β} (hx : Reads x text a more)
    (hf : Reads (f a) more b rest) : Reads (x >>= f) text b rest := by
  unfold Reads at *
  rw [StateT.run_bind, hx]
  exact hf

theorem Reads.map {a : α} (h : Reads x text a rest) (f : α → β) :
    Reads (f <$> x) text (f a) rest := by
  unfold Reads at *
  rw [StateT.run_map, h]
  rfl

theorem reads_lift {o : Option α} {a : α} (h : o = some a) (text : List Char) :
    Reads (liftM o) text a text := by
  cases h
  rfl

theorem reads_pure (a : α) (text : List Char) : Reads (pure a) text a text := rfl

theorem reads_get (text : List Char) : Reads get text text text := rfl

theorem reads_set (text rest : List Char) : Reads (set rest) text () rest := rfl

theorem reads_modify (f : List Char → List Char) (text : List Char) :
    Reads (modify f) text () (f text) := rfl

theorem isBlank_of_isDigit {c : Char} (h : c.isDigit) : isBlank c = false := by
  have hrange : 48 ≤ c.toNat ∧ c.toNat ≤ 57 := by
    simpa [Char.isDigit, Char.le_def, UInt32.le_iff_toNat_le] using h
  unfold isBlank
  simp only [Bool.or_eq_false_iff, Bool.and_eq_false_iff, decide_eq_false_iff_not]
  omega

theorem reads_skipBlanks (h : ∀ c ∈ text.head?, isBlank c = false) :
    Reads skipBlanks text () text := by
  have hsame : text.dropWhile isBlank = text := by
    cases text with
    | nil => rfl
    | cons c cs => rw [List.dropWhile_cons_of_neg (by simp [h c rfl])]
  have hread := reads_modify (List.dropWhile isBlank) text
  rw [hsame] at hread
  exact hread

theorem reads_separator {c : Char} (h : isBlank c = false) (rest : List Char) :
    Reads (separator c) (c :: rest) () rest := by
  refine .bind (reads_skipBlanks fun d hd => ?_) (.bind (reads_get _) ?_)
  · cases hd
    exact h
  · dsimp only
    rw [if_pos rfl]
    exact reads_set _ rest

/-- Digits are taken as far as they go, or as many as there may be. -/
theorem reads_numeral {most : Nat} {ds : List Char} (hne : ds ≠ []) (hds : ∀ d ∈ ds, d.isDigit)
    (hlength : ds.length ≤ most)
    (hend : ds.length = most ∨ ∀ c ∈ rest.head?, c.isDigit = false) :
    Reads (numeral most) (ds ++ rest) ds rest := by
  have htake : ((ds ++ rest).takeWhile Char.isDigit).take most = ds := by
    rw [List.takeWhile_append_of_pos hds]
    rcases hend with hfull | hstop
    · exact List.take_left' hfull
    · have hnone : rest.takeWhile Char.isDigit = [] := by
        cases rest with
        | nil => rfl
        | cons c cs => rw [List.takeWhile_cons_of_neg (by simp [hstop c rfl])]
      rw [hnone, List.append_nil]
      exact List.take_of_length_le hlength
  refine .bind (reads_get _) ?_
  dsimp only
  rw [htake, if_neg (by simpa using hne), List.drop_left]
  exact .bind (reads_set _ rest) (reads_pure ds rest)

/-- A number of one or two digits, written with two. -/
theorem reads_field {low high n : Nat} (h : low ≤ n ∧ n ≤ high) (hwidth : n < 100)
    (rest : List Char) : Reads (field low high) (Decimal.padded 2 n ++ rest) n rest := by
  have hlength : (Decimal.padded 2 n).length = 2 :=
    Decimal.length_padded (by decide) hwidth
  have hnumeral : Reads (numeral 2) (Decimal.padded 2 n ++ rest) (Decimal.padded 2 n) rest :=
    reads_numeral Decimal.padded_ne_nil Decimal.isDigit_of_mem_padded (by omega) (.inl hlength)
  refine .bind (reads_skipBlanks fun c hc => ?_) (.bind hnumeral ?_)
  · exact isBlank_of_isDigit (Decimal.isDigit_of_mem_head?_padded c hc)
  · rw [Decimal.value_padded, if_pos h]
    exact reads_pure n rest

/-- A year of four digits, or one behind its sign, which ends where the digits do. -/
theorem reads_year (y : Int) (rest : List Char) :
    Reads year (yearText y ++ '-' :: rest) y ('-' :: rest) := by
  have hnumeral : ∀ {n most : Nat},
      (Decimal.padded 4 n).length ≤ most →
      Reads (numeral most) (Decimal.padded 4 n ++ '-' :: rest) (Decimal.padded 4 n)
        ('-' :: rest) := fun hlength =>
    reads_numeral Decimal.padded_ne_nil Decimal.isDigit_of_mem_padded hlength
      (.inr fun c hc => by cases hc; rfl)
  unfold yearText
  by_cases hfour : 0 ≤ y ∧ y ≤ 9999
  · have hdigit := @Decimal.isDigit_of_mem_head?_padded 4 y.toNat ('-' :: rest)
    have hlength : (Decimal.padded 4 y.toNat).length = 4 :=
      Decimal.length_padded (by decide) (by omega)
    rw [if_pos hfour]
    refine .bind (reads_skipBlanks fun c hc => isBlank_of_isDigit (hdigit c hc))
      (.bind (reads_get _) ?_)
    split
    · next heq =>
      rw [heq] at hdigit
      exact absurd (hdigit _ rfl) (by decide)
    · next heq =>
      rw [heq] at hdigit
      exact absurd (hdigit _ rfl) (by decide)
    · refine .bind (hnumeral (by omega)) ?_
      rw [Decimal.value_padded, Int.toNat_of_nonneg hfour.1]
      exact reads_pure y _
  · rw [if_neg hfour]
    by_cases hnegative : y < 0
    · rw [if_pos hnegative]
      refine .bind (reads_skipBlanks fun c hc => by cases hc; rfl) (.bind (reads_get _) ?_)
      refine .bind (reads_set _ _) (.bind (hnumeral (by simp)) ?_)
      rw [Decimal.value_padded, show -(y.natAbs : Int) = y by omega]
      exact reads_pure y _
    · rw [if_neg hnegative]
      refine .bind (reads_skipBlanks fun c hc => by cases hc; rfl) (.bind (reads_get _) ?_)
      refine .bind (reads_set _ _) (.bind (hnumeral (by simp)) ?_)
      rw [Decimal.value_padded, show (y.natAbs : Int) = y by omega]
      exact reads_pure y _

/-! ## Dates and times -/

theorem reads_date {c : Civil} (h : c.exists? = true) (rest : List Char) :
    Reads date (yearText c.year ++ ('-' :: (Decimal.padded 2 c.month.toNat ++
      ('-' :: (Decimal.padded 2 c.date.toNat ++ rest))))) c rest := by
  obtain ⟨hmonth, hdate⟩ := Civil.bounds_of_exists? h
  refine .bind (reads_year _ _) (.bind (reads_separator rfl _) ?_)
  refine .bind (reads_field (by omega) (by omega) _) (.bind (reads_separator rfl _) ?_)
  refine .bind (reads_field (by omega) (by omega) _) ?_
  dsimp only
  rw [Int.toNat_of_nonneg (by omega), Int.toNat_of_nonneg (by omega), if_pos h]
  exact reads_pure c rest

theorem reads_dateEnd (rest : List Char) : Reads dateEnd ('T' :: rest) () rest := by
  refine .bind (reads_get _) ?_
  dsimp only
  rw [if_pos (.inl rfl)]
  exact reads_set _ rest

/-- A fraction of nine digits at most, filled up to nine. -/
theorem reads_fraction {width n : Nat} (hwidth : 0 < width ∧ width ≤ 9) (h : n < 10 ^ width)
    (rest : List Char) :
    Reads nanoseconds ('.' :: (Decimal.padded width n ++ 'Z' :: rest)) (n * 10 ^ (9 - width))
      ('Z' :: rest) := by
  have hlength : (Decimal.padded width n).length = width := Decimal.length_padded hwidth.1 h
  have hnumeral : Reads (numeral 9) (Decimal.padded width n ++ 'Z' :: rest)
      (Decimal.padded width n) ('Z' :: rest) :=
    reads_numeral Decimal.padded_ne_nil Decimal.isDigit_of_mem_padded (by omega)
      (.inr fun c hc => by cases hc; rfl)
  refine .bind (reads_get _) (.bind (reads_set _ _) (.bind hnumeral ?_))
  refine .bind (reads_modify _ _) ?_
  rw [Decimal.value_rightpad, hlength, Decimal.value_padded]
  exact reads_pure _ _

/-- The fewest groups of three digits tell all nine. -/
theorem reads_nanoseconds {n : Nat} (h : n < 1000000000) (rest : List Char) :
    Reads nanoseconds (fractionText n ++ 'Z' :: rest) n ('Z' :: rest) := by
  unfold fractionText
  by_cases hnone : n = 0
  · rw [if_pos hnone, hnone]
    exact .bind (reads_get _) (reads_pure 0 _)
  rw [if_neg hnone]
  by_cases hthree : n % 1000000 = 0
  · have hread := @reads_fraction 3 (n / 1000000) (by decide) (by omega) rest
    rw [show n / 1000000 * 10 ^ (9 - 3) = n by omega] at hread
    rw [if_pos hthree]
    exact hread
  rw [if_neg hthree]
  by_cases hsix : n % 1000 = 0
  · have hread := @reads_fraction 6 (n / 1000) (by decide) (by omega) rest
    rw [show n / 1000 * 10 ^ (9 - 6) = n by omega] at hread
    rw [if_pos hsix]
    exact hread
  rw [if_neg hsix]
  have hread := @reads_fraction 9 n (by decide) h rest
  rw [show n * 10 ^ (9 - 9) = n by omega] at hread
  exact hread

theorem reads_zone (rest : List Char) : Reads zone ('Z' :: rest) 0 rest :=
  .bind (reads_get _) (.bind (reads_set _ rest) (reads_pure 0 rest))

/-! ## Instants -/

theorem ofUnix?_self (t : Instant) : ofUnix? t.seconds t.nanos = some t := by
  unfold ofUnix?
  rw [dif_pos ⟨t.inCalendar, t.nanos_lt⟩]

/-- The last second of a leap minute is written as its sixtieth. -/
theorem reads_instant (t : Instant) : Reads reader t.chars t [] := by
  obtain ⟨second, hsecond⟩ : ∃ s, s = t.secondOfDay.toNat := ⟨_, rfl⟩
  obtain ⟨leap, hleap⟩ : ∃ l, l = if t.nanos < 1000000000 then 0 else 1 := ⟨_, rfl⟩
  have hday : second < 86400 ∧ (t.seconds / 86400) * 86400 + second = t.seconds := by
    unfold secondOfDay at hsecond
    omega
  have hminute : second % 60 + leap ≤ 60 := by
    split at hleap <;> omega
  have hnanos : t.nanos - leap * 1000000000 < 1000000000 := by
    have hlt := t.nanos_lt
    split at hleap <;> omega
  have hback : t.nanos - leap * 1000000000 + leap * 1000000000 = t.nanos := by
    split at hleap <;> omega
  have hsame : (if second % 60 + leap = 60 then 1 else 0) = leap := by
    have hlt := t.nanos_lt
    split at hleap
    · rw [if_neg (by omega), hleap]
    · rw [if_pos (by omega), hleap]
  unfold chars
  dsimp only
  rw [← hsecond, ← hleap]
  simp only [List.append_assoc, List.cons_append]
  have hdate : t.civil.exists? = true := Civil.exists?_ofDay _
  have hclock : t.civil.day * 86400 + ((second / 3600 * 3600 + second / 60 % 60 * 60 +
      (second % 60 + leap - leap) : Nat) : Int) = t.seconds := by
    rw [civil, Civil.day_ofDay]
    omega
  refine .bind ((reads_date hdate _).map _) (.bind (reads_dateEnd _) ?_)
  refine .bind (reads_field (by omega) (by omega) _) (.bind (reads_separator rfl _) ?_)
  refine .bind (reads_field (by omega) (by omega) _) (.bind (reads_separator rfl _) ?_)
  refine .bind (reads_field (by omega) (by omega) _) (.bind (reads_nanoseconds hnanos _) ?_)
  refine .bind (reads_skipBlanks fun c hc => by cases hc; rfl) (.bind (reads_zone _) ?_)
  refine .bind (reads_skipBlanks (by simp)) (.bind (reads_get _) ?_)
  dsimp only
  rw [if_pos List.isEmpty_nil, hsame, hclock, hback, Int.sub_zero]
  exact .bind (reads_lift t.ofUnix?_self []) (reads_lift t.ofUnix?_self [])

/-- The text of an instant is read as that instant. -/
theorem ofText?_text (t : Instant) : ofText? t.text = some t := by
  unfold ofText? text
  rw [String.toList_ofList, StateT.run'_eq, reads_instant t]
  rfl

example : Instant.text ⟨first, 999999000, by decide, by decide⟩ =
    "-262143-01-01T00:00:00.999999Z" := by
  decide +kernel

end Instant

end Purse
