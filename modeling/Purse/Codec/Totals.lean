import Purse.Codec.Accounts
import Purse.Totals

/-!
# Sums of balances as JSON

Sums over accounts may need more than 64 bits; 128 are enough for every wallet
there can be.
-/

namespace Purse

def WalletBalance.toJson (b : WalletBalance) : Json :=
  .record [("total", .nat b.total), ("spendable", .nat b.spendable),
    ("immature_reward", .nat b.immature)]

def WalletBalance.ofJson? (j : Json) : Option WalletBalance := do
  match ← j.fields? ["total", "spendable", "immature_reward"] with
  | [some total, some spendable, some immature] =>
    return ⟨← total.sum?, ← spendable.sum?, ← immature.sum?⟩
  | _ => none

def MixingBalances.toJson (m : MixingBalances) : Json :=
  .record [("mixed", m.mixed.toJson), ("unmixed", m.unmixed.toJson)]

def MixingBalances.ofJson? (j : Json) : Option MixingBalances := do
  match ← j.fields? ["mixed", "unmixed"] with
  | [some mixed, some unmixed] => return ⟨← Amount.ofJson? mixed, ← Amount.ofJson? unmixed⟩
  | _ => none

end Purse
