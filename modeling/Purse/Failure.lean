import Purse.Asset
import Purse.OutPoint
import Purse.Double.Shortest

/-!
# Why an operation fails

A failure names its cause; `message` puts it into words. Engines answer with
causes of their own, `EngineError`, which turn into failures one for one, so that
nobody above an engine has to know which asset it serves.
-/

namespace Purse

/-! ## What engines report -/

/-- Why a wallet engine refuses a call. -/
inductive EngineError where
  /-- The account or item does not exist. -/
  | missing (what : String)
  /-- The call needs the wallet unlocked. -/
  | locked
  | failed (why : String)
  deriving DecidableEq, Repr, Inhabited

/-- The engine's own wording, which differs between the assets. -/
def EngineError.message (asset : Asset) : EngineError → String
  | missing what =>
    match asset with
    | .btc => "account not found: " ++ what
    | .dcr => "item does not exist: " ++ what
  | locked => "wallet locked"
  | failed why => why

/-! ## What operations report -/

/-- A thing that was looked up in vain. -/
inductive Missing where
  | wallet (id : WalletId)
  /-- The wallet is there, its accounts were never loaded. -/
  | accounts (wallet : WalletId)
  | account (number : UInt32) (wallet : WalletId)
  /-- A selection has no group for the account. -/
  | group (number : UInt32) (wallet : WalletId)
  | output (point : OutPoint)
  /-- What an engine called missing. -/
  | reported (what : String)
  deriving DecidableEq, Repr

def Missing.message : Missing → String
  | wallet id => s!"wallet {id}"
  | accounts id => s!"accounts of wallet {id} not loaded yet"
  | account number id => s!"account {number} in wallet {id}"
  | group number id => s!"account {number} in selection of wallet {id}"
  | output point => "output " ++ point.text
  | reported what => what

/-- A quantity that an engine states in signed units. -/
inductive Quantity where
  | totalBalance
  | spendableBalance
  | immatureReward
  | outputAmount
  deriving DecidableEq, Repr

def Quantity.name : Quantity → String
  | totalBalance => "total balance"
  | spendableBalance => "spendable balance"
  | immatureReward => "immature reward"
  | outputAmount => "output amount"

/-- An answer of an engine that is no use. -/
inductive BadAnswer where
  /-- The engine said so itself. -/
  | reported (why : String)
  /-- Not a finite number of coins, or a negative one. -/
  | invalidCoins (coins : Double)
  /-- More units than 64 bits hold. -/
  | tooManyCoins (coins : Double)
  | invalidTime (seconds : Int64) (point : OutPoint)
  | negative (what : Quantity) (units : Int64)
  /-- The immature rewards add up beyond 64 bits. -/
  | immatureOverflow
  deriving DecidableEq, Repr

def BadAnswer.message : BadAnswer → String
  | reported why => why
  | invalidCoins coins => "invalid BTC amount " ++ coins.text
  | tooManyCoins coins => "BTC amount " ++ coins.text ++ " out of range"
  | invalidTime seconds point => s!"invalid receive time {seconds} for " ++ point.text
  | negative what units => "negative " ++ what.name ++ s!" reported: {units} atoms"
  | immatureOverflow => "immature reward overflow"

/-- A service that a wallet does not offer. -/
inductive Unoffered where
  | mixing (asset : Asset)
  /-- The wallet could mix, had it been told between which accounts. -/
  | mixerAccounts
  | mixingBalances (wallet : WalletId) (asset : Asset)
  | named (what : String)
  deriving DecidableEq, Repr

def Unoffered.message : Unoffered → String
  | mixing asset => asset.ticker ++ " wallets have no account mixer"
  | mixerAccounts => "mixed and unmixed accounts are not configured"
  | mixingBalances wallet asset => s!"wallet {wallet} (" ++ asset.ticker ++ ") has no mixer accounts"
  | named what => what

/-- A step that a selection does not allow at this point. -/
inductive Untimely where
  | notLoaded
  | alreadySubmitted
  | nothingSelected
  | named (what : String)
  deriving DecidableEq, Repr

def Untimely.message : Untimely → String
  | notLoaded => "unspent outputs not loaded"
  | alreadySubmitted => "selection already submitted"
  | nothingSelected => "no outputs selected"
  | named what => what

/-- A setting that no registry can work with. -/
inductive BadSetting where
  | eventCapacity
  | feeOutputs
  | named (what : String)
  deriving DecidableEq, Repr

def BadSetting.message : BadSetting → String
  | eventCapacity => "event_capacity must be > 0"
  | feeOutputs => "btc_fee_outputs must be > 0"
  | named what => what

/-- Why an operation on accounts, balances or selections fails. -/
inductive Failure where
  | notFound (what : Missing)
  | walletLocked
  | backend (answer : BadAnswer)
  | unavailable (what : Unoffered)
  | invalidState (what : Untimely)
  | walletExists (id : WalletId)
  /-- A text does not encode a value of the type asked for. -/
  | malformed
  | badConfig (what : BadSetting)
  deriving DecidableEq, Repr

namespace Failure

/-- The failure in words. -/
def message : Failure → String
  | notFound what => "Not found: " ++ what.message
  | walletLocked => "Wallet is locked"
  | backend answer => "Backend failure: " ++ answer.message
  | unavailable what => "Unavailable: " ++ what.message
  | invalidState what => "Invalid state: " ++ what.message
  | walletExists id => s!"Wallet already exists: {id}"
  | malformed => "Serialization error"
  | badConfig what => "Configuration error: " ++ what.message

/-- Whether something looked up does not exist. -/
def isNotFound : Failure → Bool
  | notFound _ => true
  | _ => false

/-- The failure that an engine's refusal amounts to. -/
def ofEngine : EngineError → Failure
  | .missing what => notFound (.reported what)
  | .locked => walletLocked
  | .failed why => backend (.reported why)

end Failure

/-- The result of an operation. -/
abbrev Outcome (α : Type) := Except Failure α

end Purse
