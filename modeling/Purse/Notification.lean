import Purse.Asset

/-!
# Notifications and view events

Wallet engines announce what happens to a wallet; pages are told what to show
anew.
-/

namespace Purse

/-- What a wallet engine announces. -/
inductive Notification where
  | newTransaction (wallet : WalletId) (txid : String)
  | blockAttached (wallet : WalletId) (height : Int32)
  | mixerStarted (wallet : WalletId)
  | mixerEnded (wallet : WalletId)
  deriving DecidableEq, Repr

/-- The wallet that a notification is about. -/
def Notification.wallet : Notification → WalletId
  | newTransaction wallet _ => wallet
  | blockAttached wallet _ => wallet
  | mixerStarted wallet => wallet
  | mixerEnded wallet => wallet

/-- What a page has to show anew. -/
inductive ViewEvent where
  | accountsRefreshed (wallet : WalletId)
  | transactionsChanged (wallet : WalletId)
  | mixerStateChanged (wallet : WalletId) (running : Bool)
  | refreshFailed (wallet : WalletId) (reason : String)
  deriving DecidableEq, Repr

end Purse
