import Purse.Asset
import Purse.Output

/-!
# Transaction sizes

Bitcoin transactions are sized by the script types of the outputs they spend; for
Decred no estimate exists. `Sizing.estimate` works from running sums,
`Sizing.transaction` from the outputs themselves.
-/

namespace Purse

/-- The estimated size of a transaction in bytes, where one can be given. -/
inductive SizeEstimate where
  | bytes (count : Nat)
  | unavailable
  deriving DecidableEq, Repr, Inhabited

/-- The size in bytes, if known. -/
def SizeEstimate.bytes? : SizeEstimate → Option Nat
  | bytes count => some count
  | unavailable => none

/-- How transactions of a wallet are sized. -/
inductive Sizing where
  /-- By script type, with a fixed number of outputs. -/
  | byScript (feeOutputs : Nat)
  | none
  deriving DecidableEq, Repr

/-- Only Bitcoin wallets size their transactions. -/
def Asset.sizing (feeOutputs : Nat) : Asset → Sizing
  | .btc => .byScript feeOutputs
  | .dcr => .none

/-- Whether the script pays to a witness key hash: version 0 and a push of 20
bytes, 44 bytes of text in all. -/
def paysToWitnessKeyHash (script : String) : Bool :=
  script.utf8ByteSize = 44 && "0014".toList.isPrefixOf script.toList

/-- Bytes that spending an output with this script adds, signature included. -/
def scriptInputSize (script : String) : Nat :=
  if paysToWitnessKeyHash script then 68 else 148

namespace Sizing

/-- Bytes that spending the output adds, if sizes are known. -/
def inputSize (s : Sizing) (o : UnspentOutput) : Option Nat :=
  match s with
  | byScript _ => some (scriptInputSize o.script)
  | none => Option.none

/-- The estimate for a number of inputs whose sizes add up to `inputsSize`: ten
bytes for the transaction and 34 for each output; nothing for no inputs. -/
def estimate (s : Sizing) (count inputsSize : Nat) : SizeEstimate :=
  match s with
  | byScript feeOutputs => .bytes (if count = 0 then 0 else 10 + 34 * feeOutputs + inputsSize)
  | none => .unavailable

/-- The estimate for spending exactly these outputs. -/
def transaction (s : Sizing) (outputs : List UnspentOutput) : SizeEstimate :=
  match outputs.mapM s.inputSize with
  | some sizes => s.estimate outputs.length (sizes.foldr (· + ·) 0)
  | Option.none => .unavailable

end Sizing

end Purse
