import Purse.Amount
import Purse.Instant
import Purse.OutPoint

/-!
# Unspent outputs
-/

namespace Purse

/-- An unspent output that belongs to one account. -/
structure UnspentOutput extends OutPoint where
  address : String
  /-- The locking script in hexadecimal. -/
  script : String
  redeemScript : Option String
  amount : Amount
  confirmations : Int64
  received : Instant
  spendable : Bool
  account : UInt32
  deriving DecidableEq, Repr, Inhabited

/-- Whether the output is the one that the outpoint names. -/
def UnspentOutput.isAt (o : UnspentOutput) (p : OutPoint) : Bool :=
  o.vout = p.vout && o.txid = p.txid

end Purse
