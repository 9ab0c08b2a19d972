import Purse.Registry.Access

/-!
# Accounts of the loaded wallets

A refresh lists the accounts of a wallet, asks for the balance of each, and only
then puts the new picture in the place of the old one; if anything fails on the
way, the old picture stays. One refresh of a registration runs at a time, in the
order in which they lined up.

Other operations read the last picture, or ask the engine for what it knows now.
-/

namespace Purse.Registry

variable {ε : Type} [Engine ε]

/-! ## Refreshing -/

/-- Lines up for the refresh lock and waits until it is free. -/
def acquire (key ticket : Nat) : Op ε Unit := do
  pauseFor .room
  modify (·.modifyRegistration key fun r => { r with line := r.line ++ [ticket] })
  pauseFor (.lock key ticket)

/-- An account with the balance it has now. -/
def price (w : WalletId) (a : Access) (info : AccountInfo) : Op ε Account := do
  let balance ← accountBalance a info.number (← get).config.effectiveConfirmations
  return { info with wallet := w, balance }

/-- Takes a new picture of a registration's accounts. -/
def rebuild (w : WalletId) (key : Nat) (a : Access) : Op ε Accounts := do
  let listing ← listAccounts a
  let accounts ← listing.accounts.mapM (price w a)
  let snapshot : Accounts := ⟨accounts, listing.blockHash, listing.blockHeight⟩
  pauseFor .look
  modify (·.modifyRegistration key fun r => { r with snapshot := some snapshot })
  return snapshot

/-- Takes a new picture of a wallet's accounts, under a ticket of the caller's. -/
def refresh (ticket : Nat) (w : WalletId) : Op ε Accounts := do
  let (key, r) ← entry w
  acquire key ticket
  let outcome ← attempt (rebuild w key r.access)
  modify (·.leave ticket)
  conclude outcome

/-! ## Reading -/

/-- The last picture of a wallet's accounts. -/
def accounts (w : WalletId) : Op ε Accounts := do
  let (key, _) ← entry w
  pauseFor .look
  match (← get).registrations[key]?.bind (·.snapshot) with
  | some s => return s
  | none => throw (.notFound (.accounts w))

/-- The last picture, or a first one. Whatever is missing, the wallet itself
included, is left for the refresh to find. -/
def accountsOrRefresh (ticket : Nat) (w : WalletId) : Op ε Accounts := do
  match ← attempt (accounts w) with
  | .ok s => return s
  | .error e => if e.isNotFound then refresh ticket w else throw e

/-- An account from the last picture. -/
def lookup (w : WalletId) (number : UInt32) : Op ε Account := do
  match (← accounts w).get? number with
  | some a => return a
  | none => throw (.notFound (.account number w))

/-! ## Asking -/

/-- The number of the account that bears exactly this name. -/
def numberForName (w : WalletId) (name : String) : Op ε UInt32 := do
  let a ← access w
  call a (.accountNumber a.scope name)

/-- The account that bears the name now, from the last picture. -/
def lookupByName (w : WalletId) (name : String) : Op ε Account := do
  lookup w (← numberForName w name)

/-- Whether the engine knows the name. -/
def hasAccount (w : WalletId) (name : String) : Op ε Bool := do
  return (← attempt (numberForName w name)).isOk

def accountName (w : WalletId) (number : UInt32) : Op ε String := do
  let a ← access w
  call a (.accountName a.scope number)

def renameAccount (w : WalletId) (number : UInt32) (name : String) : Op ε Unit := do
  let a ← access w
  call a (.renameAccount a.scope number name)

/-- The unspent outputs of an account, listed under the name it has now. -/
def unspentOutputs (w : WalletId) (number : UInt32) : Op ε (List UnspentOutput) := do
  let a ← access w
  listUnspent a number (← call a (.accountName a.scope number))

/-- What an account can spend now. -/
def spendableForAccount (w : WalletId) (number : UInt32) : Op ε Amount := do
  let a ← access w
  return (← accountBalance a number (← get).config.effectiveConfirmations).spendable

/-- The derivation path of an account. -/
def accountPath (w : WalletId) (number : UInt32) : Op ε String := do
  return (← access w).accountPath number

/-! ## Creating -/

/-- A new account of a wallet that is unlocked. -/
def nextAccount (w : WalletId) (name : String) : Op ε UInt32 := do
  newAccount (← access w) name

/-- A new account; the wallet is unlocked for this only. -/
def createAccount (w : WalletId) (name passphrase : String) : Op ε UInt32 := do
  let a ← access w
  whileUnlocked a passphrase (newAccount a name)

end Purse.Registry
