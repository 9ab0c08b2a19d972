/-!
# Assets, networks and derivation paths

A wallet holds coins of one asset. Bitcoin keys live under purpose 84, Decred
keys under purpose 44; off the main network both use coin type 1.
-/

namespace Purse

/-- A wallet's number, unique among the wallets loaded at one time. -/
abbrev WalletId := UInt32

/-- The chain a wallet belongs to. -/
inductive Asset where
  | btc
  | dcr
  deriving DecidableEq, Repr, Inhabited

namespace Asset

/-- The ticker printed beside amounts. -/
def ticker : Asset → String
  | btc => "BTC"
  | dcr => "DCR"

/-- Only Decred wallets set aside accounts for mixing. -/
def supportsMixing : Asset → Bool
  | btc => false
  | dcr => true

/-- The position in listings by asset: Bitcoin comes first. -/
def rank : Asset → Nat
  | btc => 0
  | dcr => 1

instance : Ord Asset := ⟨fun a b => compare a.rank b.rank⟩

end Asset

/-- The network the loaded wallets work on. -/
inductive Network where
  | mainnet
  | testnet
  | regtest
  deriving DecidableEq, Repr, Inhabited

/-- The first two levels of a derivation path. -/
structure KeyScope where
  purpose : UInt32
  coin : UInt32
  deriving DecidableEq, Repr

/-- Where an asset's accounts are derived on a network. -/
def Asset.keyScope : Asset → Network → KeyScope
  | .btc, .mainnet => ⟨84, 0⟩
  | .btc, _ => ⟨84, 1⟩
  | .dcr, .mainnet => ⟨44, 42⟩
  | .dcr, _ => ⟨44, 1⟩

/-- The path of an account, all three levels hardened: `m/84'/0'/3'`. -/
def KeyScope.accountPath (scope : KeyScope) (account : UInt32) : String :=
  "m/" ++ toString scope.purpose ++ "'/" ++ toString scope.coin ++ "'/" ++ toString account ++ "'"

/-- The derivation path of an asset's account on a network. -/
def Asset.accountPath (asset : Asset) (network : Network) (account : UInt32) : String :=
  (asset.keyScope network).accountPath account

end Purse
