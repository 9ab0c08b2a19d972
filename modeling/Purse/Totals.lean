import Purse.Registry.Accounts

/-!
# Balances of wallets and assets

Sums are natural numbers, so nothing can overflow. A wallet whose accounts were
never loaded is refreshed on the way; one that was counts as of its last refresh.
-/

namespace Purse

/-- The balances of all accounts of a wallet, added up. -/
structure WalletBalance where
  total : Nat := 0
  spendable : Nat := 0
  immature : Nat := 0
  deriving DecidableEq, Repr, Inhabited

/-- One more account. -/
def WalletBalance.add (b : WalletBalance) (a : Account) : WalletBalance where
  total := b.total + a.balance.total.toNat
  spendable := b.spendable + a.balance.spendable.toNat
  immature := b.immature + a.balance.immature.toNat

/-- The balances of accounts, added up. -/
def WalletBalance.ofAccounts (accounts : List Account) : WalletBalance :=
  accounts.foldl add {}

/-- The totals of the two accounts between which a wallet mixes. -/
structure MixingBalances where
  mixed : Amount := .zero
  unmixed : Amount := .zero
  deriving DecidableEq, Repr

/-- Takes note of an account if it is one of the two. -/
def MixingBalances.note (m : MixerAccounts) (b : MixingBalances) (a : Account) : MixingBalances :=
  if a.number = m.mixed then { b with mixed := a.balance.total }
  else if a.number = m.unmixed then { b with unmixed := a.balance.total }
  else b

/-- The two totals; of accounts with equal numbers the last one counts, and all
others are left out. -/
def splitMixing (accounts : List Account) (m : MixerAccounts) : MixingBalances :=
  accounts.foldl (MixingBalances.note m) {}

namespace Registry

variable {ε : Type} [Engine ε]

def walletBalance (ticket : Nat) (w : WalletId) : Op ε WalletBalance := do
  return .ofAccounts (← accountsOrRefresh ticket w).accounts

def totalForWallet (ticket : Nat) (w : WalletId) : Op ε Nat := do
  return (← walletBalance ticket w).total

def spendableForWallet (ticket : Nat) (w : WalletId) : Op ε Nat := do
  return (← walletBalance ticket w).spendable

def immatureForWallet (ticket : Nat) (w : WalletId) : Op ε Nat := do
  return (← walletBalance ticket w).immature

/-- The sum over wallets, one after another; a wallet named twice counts twice. -/
def totalAcross (ticket : Nat) : List WalletId → Op ε Nat
  | [] => return 0
  | w :: rest => do
    let total ← totalForWallet ticket w
    return total + (← totalAcross ticket rest)

/-- Adds to the sum of an asset; sums stand in the order of the assets. -/
def addTotal (asset : Asset) (total : Nat) : List (Asset × Nat) → List (Asset × Nat)
  | [] => [(asset, total)]
  | (other, sum) :: rest =>
    if asset = other then (other, sum + total) :: rest
    else if asset.rank < other.rank then (asset, total) :: (other, sum) :: rest
    else (other, sum) :: addTotal asset total rest

/-- The sums of some wallets by asset, on top of sums there already are. -/
def addTotals (ticket : Nat) (sums : List (Asset × Nat)) : List WalletId → Op ε (List (Asset × Nat))
  | [] => return sums
  | w :: rest => do
    let asset := (← access w).asset
    let total ← totalForWallet ticket w
    addTotals ticket (addTotal asset total sums) rest

/-- The sums of all loaded wallets by asset. -/
def totalsByAsset (ticket : Nat) : Op ε (List (Asset × Nat)) := do
  addTotals ticket [] (← walletIds)

/-- What the two mixing accounts of a wallet hold. -/
def mixingBalances (ticket : Nat) (w : WalletId) : Op ε MixingBalances := do
  let a ← access w
  match ← mixerAccounts a with
  | none => throw (.unavailable (.mixingBalances w a.asset))
  | some m => return splitMixing (← accountsOrRefresh ticket w).accounts m

end Registry

end Purse
