import Purse.Account
import Purse.Failure
import Purse.Json.Decode
import Purse.Json.Reader
import Purse.Json.Writer
import Purse.Registry.Accounts

/-!
# Accounts as JSON

The text form in which the accounts of a wallet cross a boundary. An account's
own properties stand side by side with its wallet and balance in one object.
-/

namespace Purse

/-! ## Assets and networks -/

def Asset.toJson : Asset → Json
  | btc => .text "Btc"
  | dcr => .text "Dcr"

def Asset.ofJson? (j : Json) : Option Asset := do
  match ← j.bareChoice? with
  | "Btc" => some btc
  | "Dcr" => some dcr
  | _ => none

def Network.toJson : Network → Json
  | mainnet => .text "Mainnet"
  | testnet => .text "Testnet"
  | regtest => .text "Regtest"

def Network.ofJson? (j : Json) : Option Network := do
  match ← j.bareChoice? with
  | "Mainnet" => some mainnet
  | "Testnet" => some testnet
  | "Regtest" => some regtest
  | _ => none

/-! ## Balances -/

def Amount.toJson (a : Amount) : Json :=
  .nat a.toNat

def Amount.ofJson? (j : Json) : Option Amount :=
  j.uint64?.map Amount.mk

def Balance.toJson (b : Balance) : Json :=
  .record [("total", b.total.toJson), ("spendable", b.spendable.toJson),
    ("immature_reward", b.immature.toJson)]

def Balance.ofJson? (j : Json) : Option Balance := do
  match ← j.fields? ["total", "spendable", "immature_reward"] with
  | [some total, some spendable, some immature] =>
    return ⟨← Amount.ofJson? total, ← Amount.ofJson? spendable, ← Amount.ofJson? immature⟩
  | _ => none

/-! ## Accounts -/

/-- The names under which an account's own properties are stored. -/
def AccountInfo.fieldNames : List String :=
  ["account_number", "account_name", "external_key_count", "internal_key_count",
    "imported_key_count"]

def AccountInfo.fields (a : AccountInfo) : List (String × Json) :=
  [("account_number", .nat a.number.toNat), ("account_name", .text a.name),
    ("external_key_count", .nat a.externalKeys.toNat),
    ("internal_key_count", .nat a.internalKeys.toNat),
    ("imported_key_count", .nat a.importedKeys.toNat)]

def AccountInfo.toJson (a : AccountInfo) : Json :=
  .record a.fields

def AccountInfo.ofJson? (j : Json) : Option AccountInfo := do
  match ← j.fields? AccountInfo.fieldNames with
  | [some number, some name, some external, some internal, some imported] =>
    return {
      number := ← number.uint32?
      name := ← name.string?
      externalKeys := ← external.uint32?
      internalKeys := ← internal.uint32?
      importedKeys := ← imported.uint32? }
  | _ => none

def Account.toJson (a : Account) : Json :=
  .record (("wallet_id", .nat a.wallet.toNat) :: (a.toAccountInfo.fields ++
    [("balance", a.balance.toJson)]))

/-- The nesting that a document may have where all of it is kept. -/
def Json.maxDepth : Nat := 127

/-- An account is always an object. Its own properties are looked up among all
fields but the wallet and the balance, which therefore have to be sound; `depth`
is the nesting left below the account. -/
def Account.ofJson? (depth : Nat) (j : Json) : Option Account := do
  match j with
  | .object fields =>
    match ← j.fields? ["wallet_id", "balance"] with
    | [some wallet, some balance] =>
      let wallet ← wallet.uint32?
      let balance ← Balance.ofJson? balance
      let info ← AccountInfo.ofJson? j
      let others := fields.filter fun f => f.1 ≠ some "wallet_id" ∧ f.1 ≠ some "balance"
      if Json.haveSound depth others then some { info with wallet, balance } else none
    | _ => none
  | _ => none

/-! ## All accounts of a wallet -/

def Accounts.toJson (s : Accounts) : Json :=
  .record [("accounts", .array (s.accounts.map Account.toJson)),
    ("current_block_hash", .text (Digest.text s.blockHash)),
    ("current_block_height", .integer s.blockHeight.toInt)]

/-- Accounts lie two levels deep. -/
def Accounts.ofJson? (j : Json) : Option Accounts := do
  match ← j.fields? ["accounts", "current_block_hash", "current_block_height"] with
  | [some accounts, some hash, some height] =>
    return {
      accounts := ← accounts.list? (Account.ofJson? (Json.maxDepth - 3))
      blockHash := ← Digest.ofText? (← hash.string?)
      blockHeight := ← height.int32? }
  | _ => none

/-- The compact text of a snapshot. -/
def Accounts.toText (s : Accounts) : String :=
  s.toJson.render

/-- The snapshot that a text encodes. -/
def Accounts.ofText (text : String) : Outcome Accounts :=
  match (Json.parse? text).bind Accounts.ofJson? with
  | some s => .ok s
  | none => .error .malformed

/-- The text of the last picture, or of a first one. -/
def Registry.accountsText {ε : Type} [Engine ε] (ticket : Nat) (w : WalletId) : Op ε String := do
  return (← accountsOrRefresh ticket w).toText

/-! ## Mixing -/

def MixerAccounts.toJson (m : MixerAccounts) : Json :=
  .record [("mixed", .nat m.mixed.toNat), ("unmixed", .nat m.unmixed.toNat)]

def MixerAccounts.ofJson? (j : Json) : Option MixerAccounts := do
  match ← j.fields? ["mixed", "unmixed"] with
  | [some mixed, some unmixed] => return ⟨← mixed.uint32?, ← unmixed.uint32?⟩
  | _ => none

end Purse
