import Mathlib.Algebra.Group.Nat.Defs
import Mathlib.Data.List.Basic
import Mathlib.Data.List.Induction
import Purse.Decimal

/-!
# Digits and numbers

A number has one text without superfluous zeros (`toDigits_value`), and at most one of each width
where zeros may stand in front (`eq_of_value`). The first goes from the first digit on, as it is
the one that must not be zero, and the second from the last digit back, which is the rest by ten.
-/

namespace Purse.Decimal

variable {d : Char} {ds es : List Char}

/-! ## Numbers as digits -/

theorem isDigit_of_mem_padded {width n : Nat} : ∀ c ∈ padded width n, c.isDigit := by
  intro c hc
  rcases List.mem_append.mp hc with hzero | hdigit
  · obtain ⟨-, rfl⟩ := List.mem_replicate.mp hzero
    rfl
  · exact Nat.isDigit_of_mem_toDigits (by decide) (by decide) hdigit

theorem padded_ne_nil {width n : Nat} : padded width n ≠ [] :=
  List.append_ne_nil_of_right_ne_nil _ Nat.toDigits_ne_nil

/-- A number begins with a digit. -/
theorem isDigit_of_mem_head?_padded {width n : Nat} {rest : List Char} :
    ∀ c ∈ (padded width n ++ rest).head?, c.isDigit := by
  obtain ⟨d, ds, hds⟩ := List.exists_cons_of_ne_nil (@padded_ne_nil width n)
  intro c hc
  rw [hds] at hc
  cases hc
  exact @isDigit_of_mem_padded width n d (by rw [hds]; exact List.mem_cons_self)

theorem length_padded {width n : Nat} (hwidth : 0 < width) (h : n < 10 ^ width) :
    (padded width n).length = width := by
  have hle : (Nat.toDigits 10 n).length ≤ width :=
    (Nat.length_toDigits_le_iff (by decide) hwidth).mpr h
  rw [padded, List.length_leftpad]
  omega

/-- Zeros behind the digits multiply by powers of ten. -/
theorem value_rightpad (width : Nat) (ds : List Char) :
    value (ds.rightpad width '0') = value ds * 10 ^ (width - ds.length) := by
  rw [List.rightpad, value, Nat.ofDigitChars_append, Nat.ofDigitChars_replicate_zero, Nat.mul_comm]
  rfl

/-- A number other than zero begins with another digit than zero. -/
theorem exists_toDigits {n : Nat} (h : 0 < n) :
    ∃ d ds, Nat.toDigits 10 n = d :: ds ∧ d ∈ ['1', '2', '3', '4', '5', '6', '7', '8', '9'] := by
  induction n using Nat.strongRecOn with
  | ind n ih =>
    by_cases hlt : n < 10
    · refine ⟨n.digitChar, [], Nat.toDigits_of_lt_base hlt, ?_⟩
      have hall : ∀ k < 10, 0 < k →
          k.digitChar ∈ ['1', '2', '3', '4', '5', '6', '7', '8', '9'] := by decide
      exact hall n hlt h
    · obtain ⟨d, ds, heq, hd⟩ := ih (n / 10) (by omega) (by omega)
      refine ⟨d, ds ++ [(n % 10).digitChar], ?_, hd⟩
      rw [Nat.toDigits_of_base_le (by omega) (by omega), heq, List.cons_append]

/-! ## Digits as numbers -/

/-- The number that a digit stands for. -/
def digit (d : Char) : Nat :=
  d.toNat - '0'.toNat

theorem digit_bounds (hd : d.isDigit) : 48 ≤ d.toNat ∧ d.toNat ≤ 57 := by
  rw [Char.isDigit, Bool.and_eq_true, decide_eq_true_eq, decide_eq_true_eq] at hd
  exact hd

theorem digit_lt (hd : d.isDigit) : digit d < 10 := by
  have hbounds := digit_bounds hd
  show d.toNat - 48 < 10
  omega

theorem digitChar_digit (hd : d.isDigit) : (digit d).digitChar = d := by
  have hbounds := digit_bounds hd
  refine Char.toNat_inj.mp ?_
  rw [Nat.toNat_digitChar_of_lt_ten (digit_lt hd)]
  show 48 + (d.toNat - 48) = d.toNat
  omega

theorem toDigits_digit (hd : d.isDigit) : Nat.toDigits 10 (digit d) = [d] := by
  rw [Nat.toDigits_of_lt_base (digit_lt hd), digitChar_digit hd]

theorem value_concat (ds : List Char) (d : Char) : value (ds ++ [d]) = 10 * value ds + digit d :=
  Nat.ofDigitChars_append 0

theorem value_lt (hds : ∀ d ∈ ds, d.isDigit) : value ds < 10 ^ ds.length := by
  induction ds using List.reverseRecOn with
  | nil => decide
  | append_singleton ds d ih =>
    have hvalue := ih fun e he => hds e (List.mem_append_left _ he)
    have hdigit := digit_lt (hds d (by simp))
    rw [value_concat, List.length_append, List.length_singleton, Nat.pow_succ]
    omega

/-- Different runs of digits of one length tell different numbers. -/
theorem eq_of_value (hds : ∀ d ∈ ds, d.isDigit) (hes : ∀ e ∈ es, e.isDigit)
    (hlength : ds.length = es.length) (hvalue : value ds = value es) : ds = es := by
  induction ds using List.reverseRecOn generalizing es with
  | nil => exact (List.length_eq_zero_iff.mp hlength.symm).symm
  | append_singleton ds d ih =>
    rcases List.eq_nil_or_concat' es with rfl | ⟨es, e, rfl⟩
    · simp at hlength
    · rw [value_concat, value_concat] at hvalue
      have hd : d.isDigit := hds d (by simp)
      have he : e.isDigit := hes e (by simp)
      have hdlt := digit_lt hd
      have helt := digit_lt he
      -- each last digit is the rest of the same number by ten
      have hlast : d = e := by
        rw [← digitChar_digit hd, ← digitChar_digit he, show digit d = digit e by omega]
      have hfront : ds = es := by
        refine ih (fun c hc => hds c (List.mem_append_left _ hc))
          (fun c hc => hes c (List.mem_append_left _ hc)) ?_ (by omega)
        simpa using hlength
      rw [hfront, hlast]

/-! ## Digits without superfluous zeros -/

/-- The digits of a number with no zeros in front, other than the one of zero itself. -/
structure Plain (ds : List Char) : Prop where
  ne_nil : ds ≠ []
  digits : ∀ d ∈ ds, d.isDigit
  zero : ds.head? = some '0' → ds = ['0']

theorem plain_toDigits (n : Nat) : Plain (Nat.toDigits 10 n) := by
  refine ⟨Nat.toDigits_ne_nil,
    fun d hd => Nat.isDigit_of_mem_toDigits (by decide) (by decide) hd, fun hzero => ?_⟩
  rcases Nat.eq_zero_or_pos n with rfl | hpos
  · exact Nat.toDigits_zero 10
  · obtain ⟨d, ds, hds, hd⟩ := exists_toDigits hpos
    rw [hds] at hzero
    cases hzero
    simp at hd

/-- Digits written behind a number other than zero make the text of another number. -/
theorem toDigits_append {n : Nat} (hn : 0 < n) (hds : ∀ d ∈ ds, d.isDigit) :
    Nat.toDigits 10 n ++ ds = Nat.toDigits 10 (Nat.ofDigitChars 10 ds n) := by
  induction ds generalizing n with
  | nil => rw [List.append_nil, Nat.ofDigitChars_nil]
  | cons d ds ih =>
    have hd : d.isDigit := hds d List.mem_cons_self
    have hone : Nat.toDigits 10 n ++ [d] = Nat.toDigits 10 (10 * n + digit d) := by
      rw [← Nat.toDigits_append_toDigits (by decide) hn (digit_lt hd), toDigits_digit hd]
    calc
      Nat.toDigits 10 n ++ d :: ds = (Nat.toDigits 10 n ++ [d]) ++ ds := by simp
      _ = Nat.toDigits 10 (10 * n + digit d) ++ ds := by rw [hone]
      _ = Nat.toDigits 10 (Nat.ofDigitChars 10 ds (10 * n + digit d)) :=
        ih (by omega) fun e he => hds e (List.mem_cons_of_mem d he)
      _ = Nat.toDigits 10 (Nat.ofDigitChars 10 (d :: ds) n) := by
        rw [Nat.ofDigitChars_cons]
        rfl

/-- Without superfluous zeros a number is written in one way only. -/
theorem toDigits_value (h : Plain ds) : Nat.toDigits 10 (value ds) = ds := by
  obtain ⟨d, ds, rfl⟩ := List.exists_cons_of_ne_nil h.ne_nil
  by_cases hzero : d = '0'
  · subst hzero
    rw [h.zero rfl]
    rfl
  · have hd : d.isDigit := h.digits d List.mem_cons_self
    have hpos : 0 < digit d := by
      refine Nat.pos_of_ne_zero fun hnone => hzero ?_
      rw [← digitChar_digit hd, hnone]
      rfl
    have hds : ∀ e ∈ ds, e.isDigit := fun e he => h.digits e (List.mem_cons_of_mem d he)
    have hvalue : value (d :: ds) = Nat.ofDigitChars 10 ds (digit d) := by
      rw [value, Nat.ofDigitChars_cons, Nat.mul_zero, Nat.zero_add]
      rfl
    rw [hvalue, ← toDigits_append hpos hds, toDigits_digit hd, List.singleton_append]

end Purse.Decimal
