import Mathlib.Algebra.Group.Int.Defs
import Purse.Proofs.Registry.Refresh

/-!
# Balances out of signed reports

Signed units are taken over if they are not negative, and then they are the same number of
units (`ofSigned_ok_iff`). The two kinds of immature rewards are not looked at one by one, only
their sum is. So a balance is taken over if nothing in it is negative and the rewards can be
added up, and besides if one kind of rewards is negative and the other makes up for it
(`ReportedBalance.Hides`). Of an Int64 field for each amount there is nothing else to say:
every other report is refused, for the first thing wrong with it (`Refused`).
-/

namespace Purse

/-! ## Signed units -/

namespace Amount

variable {what : Quantity} {units : Int64}

theorem ofSigned_ok_iff {a : Amount} :
    ofSigned what units = .ok a ↔ (a.toNat : Int) = units.toInt := by
  unfold ofSigned
  by_cases h : units < 0
  · have hneg : units.toInt < 0 := Int64.lt_iff_toInt_lt.mp h
    rw [if_pos h]
    constructor
    · intro heq
      cases heq
    · intro heq
      omega
  · have hpos : 0 ≤ units := Int64.le_iff_toInt_le.mpr (Int.not_lt.mp fun hlt =>
      h (Int64.lt_iff_toInt_lt.mpr hlt))
    have hsame : (units.toUInt64.toNat : Int) = units.toInt := by
      rw [Int64.toNat_toUInt64_of_le hpos]
      exact Int64.cast_toNatClampNeg _ hpos
    rw [if_neg h]
    constructor
    · intro heq
      cases heq
      exact hsame
    · intro heq
      have hunits : a.units = units.toUInt64 := UInt64.toNat_inj.mp (by
        have hnat : (a.units.toNat : Int) = units.toInt := heq
        omega)
      rw [← hunits]

theorem ofSigned_error_iff {bad : BadAnswer} :
    ofSigned what units = .error bad ↔ units.toInt < 0 ∧ bad = .negative what units := by
  unfold ofSigned
  by_cases h : units < 0
  · have hneg : units.toInt < 0 := Int64.lt_iff_toInt_lt.mp h
    rw [if_pos h]
    constructor
    · intro heq
      cases heq
      exact ⟨hneg, rfl⟩
    · rintro ⟨-, rfl⟩
      rfl
  · rw [if_neg h]
    constructor
    · intro heq
      cases heq
    · rintro ⟨hneg, -⟩
      exact absurd (Int64.lt_iff_toInt_lt.mpr hneg) h

end Amount

/-- Two signed numbers have a sum of 64 bits. -/
def AddUp (a b : Int64) : Prop :=
  -2 ^ 63 ≤ a.toInt + b.toInt ∧ a.toInt + b.toInt < 2 ^ 63

theorem checkedSum_of_addUp {a b : Int64} (h : AddUp a b) :
    ∃ sum, checkedSum a b = some sum ∧ sum.toInt = a.toInt + b.toInt := by
  obtain ⟨hmin, hmax⟩ := h
  refine ⟨a + b, if_pos ?_, ?_⟩
  · rw [Int64.toInt_minValue, Int64.toInt_maxValue]
    omega
  · rw [Int64.toInt_add]
    exact Int.bmod_eq_of_le (by omega) (by omega)

theorem checkedSum_of_not_addUp {a b : Int64} (h : ¬AddUp a b) : checkedSum a b = none := by
  refine if_neg fun hin => h ?_
  rw [Int64.toInt_minValue, Int64.toInt_maxValue] at hin
  unfold AddUp
  omega

/-! ## Balances -/

namespace ReportedBalance

/-- Nothing that counts is negative. -/
def Nonnegative : ReportedBalance → Prop
  | units _ _ _ => True
  | signed total spendable coinbase stake _ _ _ =>
    0 ≤ total.toInt ∧ 0 ≤ spendable.toInt ∧ 0 ≤ coinbase.toInt ∧ 0 ≤ stake.toInt

/-- The immature rewards can be counted together. -/
def Fits : ReportedBalance → Prop
  | units _ _ _ => True
  | signed _ _ coinbase stake _ _ _ => AddUp coinbase stake

/-- One kind of immature rewards is negative, and the other kind makes up for it. -/
def Hides : ReportedBalance → Prop
  | units _ _ _ => False
  | signed total spendable coinbase stake _ _ _ =>
    0 ≤ total.toInt ∧ 0 ≤ spendable.toInt ∧ (coinbase.toInt < 0 ∨ stake.toInt < 0) ∧
      0 ≤ coinbase.toInt + stake.toInt

/-- The balance is what the report states, with both kinds of rewards counted together. -/
def States : ReportedBalance → Balance → Prop
  | units total spendable immature, b => b = ⟨⟨total⟩, ⟨spendable⟩, ⟨immature⟩⟩
  | signed total spendable coinbase stake _ _ _, b =>
    (b.total.toNat : Int) = total.toInt ∧ (b.spendable.toNat : Int) = spendable.toInt ∧
      (b.immature.toNat : Int) = coinbase.toInt + stake.toInt

/-- Why a report is refused: the first thing that is wrong with it. -/
inductive Refused : ReportedBalance → BadAnswer → Prop
  | overflow {total spendable coinbase stake tickets voting unconfirmed : Int64}
      (h : ¬AddUp coinbase stake) :
      Refused (signed total spendable coinbase stake tickets voting unconfirmed) .immatureOverflow
  | total {total spendable coinbase stake tickets voting unconfirmed : Int64}
      (hfits : AddUp coinbase stake) (h : total.toInt < 0) :
      Refused (signed total spendable coinbase stake tickets voting unconfirmed)
        (.negative .totalBalance total)
  | spendable {total spendable coinbase stake tickets voting unconfirmed : Int64}
      (hfits : AddUp coinbase stake) (htotal : 0 ≤ total.toInt) (h : spendable.toInt < 0) :
      Refused (signed total spendable coinbase stake tickets voting unconfirmed)
        (.negative .spendableBalance spendable)
  | immature {total spendable coinbase stake tickets voting unconfirmed sum : Int64}
      (htotal : 0 ≤ total.toInt) (hspendable : 0 ≤ spendable.toInt)
      (hsum : sum.toInt = coinbase.toInt + stake.toInt) (h : sum.toInt < 0) :
      Refused (signed total spendable coinbase stake tickets voting unconfirmed)
        (.negative .immatureReward sum)

variable {r : ReportedBalance} {b : Balance} {bad : BadAnswer}

/-- A report that is taken over is taken over exactly. -/
theorem states_of_toBalance (h : r.toBalance = .ok b) : r.Fits ∧ r.States b := by
  cases r with
  | units total spendable immature =>
    cases h
    exact ⟨trivial, rfl⟩
  | signed total spendable coinbase stake tickets voting unconfirmed =>
    by_cases hfits : AddUp coinbase stake
    · obtain ⟨sum, hchecked, hsum⟩ := checkedSum_of_addUp hfits
      simp only [toBalance, hchecked] at h
      cases ht : Amount.ofSigned .totalBalance total with
      | error e => rw [ht] at h; cases h
      | ok t =>
      cases hs : Amount.ofSigned .spendableBalance spendable with
      | error e => rw [ht, hs] at h; cases h
      | ok s =>
      cases hi : Amount.ofSigned .immatureReward sum with
      | error e => rw [ht, hs, hi] at h; cases h
      | ok i =>
      rw [ht, hs, hi] at h
      cases h
      exact ⟨hfits, Amount.ofSigned_ok_iff.mp ht, Amount.ofSigned_ok_iff.mp hs,
        (Amount.ofSigned_ok_iff.mp hi).trans hsum⟩
    · simp only [toBalance, checkedSum_of_not_addUp hfits] at h
      cases h

theorem refused_of_toBalance (h : r.toBalance = .error bad) : r.Refused bad := by
  cases r with
  | units total spendable immature => cases h
  | signed total spendable coinbase stake tickets voting unconfirmed =>
    by_cases hfits : AddUp coinbase stake
    · obtain ⟨sum, hchecked, hsum⟩ := checkedSum_of_addUp hfits
      simp only [toBalance, hchecked] at h
      cases ht : Amount.ofSigned .totalBalance total with
      | error e =>
        rw [ht] at h
        cases h
        obtain ⟨hneg, rfl⟩ := Amount.ofSigned_error_iff.mp ht
        exact .total hfits hneg
      | ok t =>
      have htotal := Amount.ofSigned_ok_iff.mp ht
      cases hs : Amount.ofSigned .spendableBalance spendable with
      | error e =>
        rw [ht, hs] at h
        cases h
        obtain ⟨hneg, rfl⟩ := Amount.ofSigned_error_iff.mp hs
        exact .spendable hfits (by omega) hneg
      | ok s =>
      have hspendable := Amount.ofSigned_ok_iff.mp hs
      cases hi : Amount.ofSigned .immatureReward sum with
      | error e =>
        rw [ht, hs, hi] at h
        cases h
        obtain ⟨hneg, rfl⟩ := Amount.ofSigned_error_iff.mp hi
        exact .immature (by omega) (by omega) hsum hneg
      | ok i =>
        rw [ht, hs, hi] at h
        cases h
    · simp only [toBalance, checkedSum_of_not_addUp hfits] at h
      cases h
      exact .overflow hfits

/-- What is refused is not acceptable in either way. -/
theorem Refused.not_accepted (h : r.Refused bad) : ¬(r.Nonnegative ∧ r.Fits ∨ r.Hides) := by
  cases h with
  | @overflow _ _ coinbase stake _ _ _ h =>
    -- numbers of different signs always have a sum
    have hcoinbase := Int64.toInt_lt coinbase
    have hstake := Int64.toInt_lt stake
    simp only [Nonnegative, Fits, Hides, AddUp] at *
    omega
  | total | spendable | immature =>
    simp only [Nonnegative, Fits, Hides, AddUp] at *
    omega

theorem States.accepted (hfits : r.Fits) (h : r.States b) :
    r.Nonnegative ∧ r.Fits ∨ r.Hides := by
  cases r with
  | units total spendable immature => exact Or.inl ⟨trivial, trivial⟩
  | signed total spendable coinbase stake tickets voting unconfirmed =>
    simp only [Nonnegative, Fits, Hides, AddUp, States] at *
    omega

theorem Hides.not_nonnegative (h : r.Hides) : ¬r.Nonnegative := by
  cases r with
  | units => exact h.elim
  | signed =>
    simp only [Nonnegative, Hides] at *
    omega

end ReportedBalance

/-- What an answer about a balance comes to. Unless rewards are hidden, a balance is taken over
exactly if nothing is negative. -/
structure Judged (reply : Except EngineError ReportedBalance) (o : Outcome Balance) : Prop where
  accepted : ∀ r, reply = .ok r → ((∃ b, o = .ok b) ↔ r.Nonnegative ∧ r.Fits ∨ r.Hides)
  unhidden : ∀ r, reply = .ok r → (((∃ b, o = .ok b) ↔ r.Nonnegative ∧ r.Fits) ↔ ¬r.Hides)
  exact : ∀ r b, reply = .ok r → o = .ok b → r.States b
  refused : ∀ r f, reply = .ok r → o = .error f → ∃ bad, f = .backend bad ∧ r.Refused bad
  passedOn : ∀ e, reply = .error e → o = .error (Failure.ofEngine e)

theorem judged_balanceOfReply (reply : Except EngineError ReportedBalance) :
    Judged reply (balanceOfReply reply) := by
  have haccepted : ∀ r, reply = .ok r →
      ((∃ b, balanceOfReply reply = .ok b) ↔ r.Nonnegative ∧ r.Fits ∨ r.Hides) := by
    rintro r rfl
    show (∃ b, r.toBalance.mapError Failure.backend = .ok b) ↔ _
    cases h : r.toBalance with
    | ok b =>
      obtain ⟨hfits, hstates⟩ := ReportedBalance.states_of_toBalance h
      exact ⟨fun _ => hstates.accepted hfits, fun _ => ⟨b, rfl⟩⟩
    | error bad =>
      have hrefused := ReportedBalance.refused_of_toBalance h
      exact ⟨nofun, fun hacc => absurd hacc hrefused.not_accepted⟩
  constructor
  case accepted => exact haccepted
  case unhidden =>
    intro r hr
    rw [haccepted r hr]
    constructor
    · intro hiff hhides
      exact hhides.not_nonnegative (hiff.mp (Or.inr hhides)).1
    · intro hnot
      exact or_iff_left hnot
  case exact =>
    rintro r b rfl hb
    change r.toBalance.mapError Failure.backend = .ok b at hb
    cases h : r.toBalance with
    | ok b' =>
      rw [h] at hb
      cases hb
      exact (ReportedBalance.states_of_toBalance h).2
    | error bad =>
      rw [h] at hb
      cases hb
  case refused =>
    rintro r f rfl hf
    change r.toBalance.mapError Failure.backend = .error f at hf
    cases h : r.toBalance with
    | ok b =>
      rw [h] at hf
      cases hf
    | error bad =>
      rw [h] at hf
      cases hf
      exact ⟨bad, rfl, ReportedBalance.refused_of_toBalance h⟩
  case passedOn =>
    rintro e rfl
    rfl

end Purse
