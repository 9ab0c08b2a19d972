import Purse.Json.Decode
import Purse.Notification

/-!
# Notifications and view events as JSON
-/

namespace Purse

def Notification.toJson : Notification → Json
  | newTransaction wallet txid =>
    .record [("NewTransaction", .record [("wallet_id", .nat wallet.toNat), ("txid", .text txid)])]
  | blockAttached wallet height =>
    .record [("BlockAttached",
      .record [("wallet_id", .nat wallet.toNat), ("height", .integer height.toInt)])]
  | mixerStarted wallet =>
    .record [("MixerStarted", .record [("wallet_id", .nat wallet.toNat)])]
  | mixerEnded wallet =>
    .record [("MixerEnded", .record [("wallet_id", .nat wallet.toNat)])]

/-- The contents of an event that names a wallet only. -/
def walletField? (j : Json) : Option WalletId := do
  match ← j.fields? ["wallet_id"] with
  | [some wallet] => wallet.uint32?
  | _ => none

/-- The contents of an event that names a wallet and one thing more. -/
def walletAnd? {α : Type} (name : String) (decode : Json → Option α) (j : Json) :
    Option (WalletId × α) := do
  match ← j.fields? ["wallet_id", name] with
  | [some wallet, some value] => return (← wallet.uint32?, ← decode value)
  | _ => none

def Notification.ofJson? (j : Json) : Option Notification := do
  match ← j.choice? with
  | ("NewTransaction", some contents) =>
    let (wallet, txid) ← walletAnd? "txid" Json.string? contents
    return newTransaction wallet txid
  | ("BlockAttached", some contents) =>
    let (wallet, height) ← walletAnd? "height" Json.int32? contents
    return blockAttached wallet height
  | ("MixerStarted", some contents) => return mixerStarted (← walletField? contents)
  | ("MixerEnded", some contents) => return mixerEnded (← walletField? contents)
  | _ => none

def ViewEvent.toJson : ViewEvent → Json
  | accountsRefreshed wallet =>
    .record [("AccountsRefreshed", .record [("wallet_id", .nat wallet.toNat)])]
  | transactionsChanged wallet =>
    .record [("TransactionsChanged", .record [("wallet_id", .nat wallet.toNat)])]
  | mixerStateChanged wallet running =>
    .record [("MixerStateChanged",
      .record [("wallet_id", .nat wallet.toNat), ("running", .bool running)])]
  | refreshFailed wallet reason =>
    .record [("RefreshFailed",
      .record [("wallet_id", .nat wallet.toNat), ("reason", .text reason)])]

def ViewEvent.ofJson? (j : Json) : Option ViewEvent := do
  match ← j.choice? with
  | ("AccountsRefreshed", some contents) => return accountsRefreshed (← walletField? contents)
  | ("TransactionsChanged", some contents) => return transactionsChanged (← walletField? contents)
  | ("MixerStateChanged", some contents) =>
    let (wallet, running) ← walletAnd? "running" Json.bool? contents
    return mixerStateChanged wallet running
  | ("RefreshFailed", some contents) =>
    let (wallet, reason) ← walletAnd? "reason" Json.string? contents
    return refreshFailed wallet reason
  | _ => none

end Purse
