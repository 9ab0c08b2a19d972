import Purse.Registry.Accounts
import Purse.Selection

/-!
# Loading a selection

The accounts of the wallet are refreshed first, so that new and renamed ones are
found; then the outputs of each are listed. The selection is changed only when
everything is there.
-/

namespace Purse.Selection

variable {ε : Type} [Engine ε]

/-- The unspent outputs of an account, none of them picked. -/
def fetchGroup (w : WalletId) (a : Account) : Registry.Op ε Group := do
  let outputs ← Registry.unspentOutputs w a.number
  return ⟨a.number, a.name, outputs.map fun output => ⟨output, false⟩⟩

/-- How the wallet's transactions are sized, and the outputs of all its accounts. -/
def fetchGroups (ticket : Nat) (w : WalletId) : Registry.Op ε (Sizing × List Group) := do
  let access ← Registry.access w
  let snapshot ← Registry.refresh ticket w
  let groups ← snapshot.accounts.mapM (fetchGroup w)
  return (← Registry.sizing access, groups)

/-- Loads the wallet's outputs. After a failure the selection is as it was. -/
def fetch (ticket : Nat) (s : Selection) :
    Flow Wait (Registry ε) (Outcome Unit × Selection) := do
  match ← (fetchGroups ticket s.wallet).run with
  | .ok (sizing, groups) => return (.ok (), s.load sizing groups)
  | .error e => return (.error e, s)

end Purse.Selection
