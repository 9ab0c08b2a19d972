import Purse.Amount
import Purse.Asset
import Purse.Digest

/-!
# Accounts and their balances

An account belongs to one wallet and carries the balance it was last priced at.
`Accounts` is the picture of all accounts of a wallet at one block.
-/

namespace Purse

/-- The balance of one account. -/
structure Balance where
  total : Amount
  /-- Funds with enough confirmations. -/
  spendable : Amount
  /-- Mining and staking rewards that cannot be spent yet. -/
  immature : Amount
  deriving DecidableEq, Repr, Inhabited

/-- What is known of an account apart from its balance. -/
structure AccountInfo where
  number : UInt32
  name : String
  externalKeys : UInt32
  internalKeys : UInt32
  importedKeys : UInt32
  deriving DecidableEq, Repr, Inhabited

/-- Addresses that a wallet looks ahead beyond the keys in use. -/
def gapLimit : Nat := 20

/-- The number kept for the account of imported keys. -/
def importedAccount : UInt32 := 2147483647

/-- A count of keys with the look-ahead added, at most the greatest count. -/
def withGap (keys : UInt32) : UInt32 :=
  UInt32.ofNat (min (keys.toNat + gapLimit) (UInt32.size - 1))

/-- The account with its look-ahead; imported keys have none. -/
def AccountInfo.lookAhead (a : AccountInfo) : AccountInfo :=
  { a with externalKeys := withGap a.externalKeys, internalKeys := withGap a.internalKeys }

/-- An account of a wallet with its balance. -/
structure Account extends AccountInfo where
  wallet : WalletId
  balance : Balance
  deriving DecidableEq, Repr, Inhabited

/-- Whether this is the account of imported keys. -/
def Account.isImported (a : Account) : Bool :=
  a.number = importedAccount

/-- All accounts of a wallet as of one block. -/
structure Accounts where
  accounts : List Account
  blockHash : Digest
  blockHeight : Int32
  deriving DecidableEq, Repr

/-- The first account with the number. -/
def Accounts.get? (s : Accounts) (number : UInt32) : Option Account :=
  s.accounts.find? (·.number = number)

/-- The accounts between which a wallet mixes coins. -/
structure MixerAccounts where
  mixed : UInt32
  unmixed : UInt32
  deriving DecidableEq, Repr

end Purse
