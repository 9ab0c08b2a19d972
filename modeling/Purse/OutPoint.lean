/-!
# Outpoints

An outpoint names one output of one transaction; it is what identifies an unspent
output from one listing to the next. Outpoints are ordered by transaction text,
character by character, then by index.
-/

namespace Purse

/-- Transaction id and output index. -/
structure OutPoint where
  txid : String
  vout : UInt32
  deriving DecidableEq, Repr, Inhabited

namespace OutPoint

instance : Ord OutPoint :=
  ⟨fun a b => (compare a.txid b.txid).then (compare a.vout b.vout)⟩

/-- The usual spelling `txid:vout`. -/
def text (p : OutPoint) : String :=
  p.txid ++ ":" ++ toString p.vout

end OutPoint

end Purse
