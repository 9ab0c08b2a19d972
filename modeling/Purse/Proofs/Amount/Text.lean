import Purse.Amount
import Purse.Proofs.Decimal

/-!
# The text of an amount is exact

`Reads` says what a text of coins looks like and which number of units it stands for. As digits
are no points, a text is taken apart in one way only (`Reads.unique`). As eight decimals stand for
less than a coin, the coins are the quotient of the units and the decimals are their rest, and
neither is written in two ways (`Reads.eq_coinText`).

Main statement: `coinText_exact`.
-/

namespace Purse.Amount

variable {a : Amount} {text : String} {units units' : Nat}

/-- The text stands for the number of units: whole coins without superfluous zeros in front, a
point, and eight decimals. -/
def Reads (text : String) (units : Nat) : Prop :=
  ∃ whole decimals : List Char, text.toList = whole ++ '.' :: decimals ∧
    Decimal.Plain whole ∧ decimals.length = 8 ∧ (∀ d ∈ decimals, d.isDigit) ∧
    Decimal.value whole * 10 ^ 8 + Decimal.value decimals = units

theorem reads_coinText (a : Amount) : Reads a.coinText a.toNat := by
  refine ⟨Nat.toDigits 10 (a.toNat / unitsPerCoin), Decimal.padded 8 (a.toNat % unitsPerCoin),
    String.toList_ofList, Decimal.plain_toDigits _, ?_, Decimal.isDigit_of_mem_padded, ?_⟩
  · exact Decimal.length_padded (by decide) (Nat.mod_lt _ (by decide))
  · rw [Decimal.value_toDigits, Decimal.value_padded]
    exact Nat.div_add_mod' a.toNat unitsPerCoin

/-- A text stands for one number at most. -/
theorem Reads.unique (h : Reads text units) (h' : Reads text units') : units = units' := by
  obtain ⟨whole, decimals, htext, hwhole, -, hdigits, rfl⟩ := h
  obtain ⟨whole', decimals', htext', -, -, -, rfl⟩ := h'
  have hpoint : ∀ ds : List Char, (∀ d ∈ ds, d.isDigit) → '.' ∉ ds := fun ds hds hmem =>
    absurd (hds '.' hmem) (by decide)
  obtain ⟨rfl, -, rfl⟩ := (List.append_cons_inj_of_notMem (hpoint whole hwhole.digits)
    (hpoint decimals hdigits)).mp (htext.symm.trans htext')
  rfl

/-- No other text stands for the units of the amount. -/
theorem Reads.eq_coinText (h : Reads text a.toNat) : text = a.coinText := by
  obtain ⟨whole, decimals, htext, hwhole, hlength, hdigits, hvalue⟩ := h
  have hlt : Decimal.value decimals < 10 ^ 8 := hlength ▸ Decimal.value_lt hdigits
  have hquotient : a.toNat / unitsPerCoin = Decimal.value whole := by
    rw [← hvalue, unitsPerCoin]
    omega
  have hrest : a.toNat % unitsPerCoin = Decimal.value decimals := by
    rw [← hvalue, unitsPerCoin]
    omega
  have hdecimals : Decimal.padded 8 (Decimal.value decimals) = decimals := by
    refine Decimal.eq_of_value Decimal.isDigit_of_mem_padded hdigits ?_ (Decimal.value_padded _ _)
    rw [Decimal.length_padded (by decide) hlt, hlength]
  rw [coinText, coinChars, hquotient, hrest, Decimal.toDigits_value hwhole, hdecimals, ← htext,
    String.ofList_toList]

/-- The text of an amount stands for its units and for no other number, no other text stands for
them, and no other amount has the text. -/
theorem coinText_exact (a : Amount) :
    (∀ units, Reads a.coinText units ↔ units = a.toNat) ∧
    (∀ text, Reads text a.toNat ↔ text = a.coinText) ∧
    ∀ b : Amount, b.coinText = a.coinText ↔ b = a := by
  refine ⟨fun units => ⟨fun h => ?_, fun h => ?_⟩, fun text => ⟨fun h => ?_, fun h => ?_⟩,
    fun b => ⟨fun h => ?_, fun h => ?_⟩⟩
  · exact h.unique (reads_coinText a)
  · exact h ▸ reads_coinText a
  · exact h.eq_coinText
  · exact h ▸ reads_coinText a
  · have hunits : b.toNat = a.toNat := (h ▸ reads_coinText b).unique (reads_coinText a)
    cases a
    cases b
    exact congrArg Amount.mk (UInt64.toNat_inj.mp hunits)
  · exact congrArg coinText h

example : (Amount.mk 250000).coinText = "0.00250000" := by
  cbv

end Purse.Amount
