import Purse.Failure

/-!
# Configuration

One set of settings serves the registry, the size estimates and the relay. A
registry refuses settings under which nothing could be buffered or sized.
-/

namespace Purse

/-- Settings shared by all loaded wallets. -/
structure Config where
  network : Network := .mainnet
  /-- Confirmations an output needs to count as spendable. -/
  requiredConfirmations : UInt32 := 1
  /-- Count unconfirmed outputs as spendable. -/
  spendUnconfirmed : Bool := false
  /-- Events buffered for a slow receiver. -/
  eventCapacity : Nat := 1024
  /-- Outputs that a size estimate assumes. -/
  feeOutputs : Nat := 2
  deriving DecidableEq, Repr, Inhabited

namespace Config

/-- The confirmations that balances are asked for. -/
def effectiveConfirmations (c : Config) : UInt32 :=
  if c.spendUnconfirmed then 0 else c.requiredConfirmations

/-- The first setting that is out of range, if any. -/
def validate (c : Config) : Outcome Unit :=
  if c.eventCapacity = 0 then .error (.badConfig .eventCapacity)
  else if c.feeOutputs = 0 then .error (.badConfig .feeOutputs)
  else .ok ()

end Config

end Purse
