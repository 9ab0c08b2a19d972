import Purse.Engine

/-!
# From reports to balances and outputs

What an engine reports is taken over only if it makes sense. Bitcoin amounts come
as floating point coins and are rounded once to whole units; Decred amounts come
signed and have to be nonnegative; times have to lie within the calendar. A list
of outputs is taken over as a whole or refused for its first bad row, in which
the time is looked at before the amount.
-/

namespace Purse

/-! ## Amounts -/

/-- Coins in double precision as units: multiplied by the units of a coin, which
rounds to the nearest double, then rounded to the nearest integer, halves
upwards. -/
def Amount.ofCoins (coins : Double) : Except BadAnswer Amount :=
  match coins.value with
  | .finite negative mantissa exponent =>
    if negative ∧ mantissa ≠ 0 then .error (.invalidCoins coins)
    else
      let (num, den) := Double.shifted (mantissa * unitsPerCoin) 1 exponent
      match (Double.ofQuotient num den).value with
      | .finite _ mantissa exponent =>
        let (num, den) := Double.shifted mantissa 1 exponent
        let units := Double.roundHalfUp num den
        if units < UInt64.size then .ok ⟨UInt64.ofNat units⟩ else .error (.tooManyCoins coins)
      | _ => .error (.tooManyCoins coins)
  | _ => .error (.invalidCoins coins)

/-- Signed units, which have to be nonnegative. -/
def Amount.ofSigned (what : Quantity) (units : Int64) : Except BadAnswer Amount :=
  if units < 0 then .error (.negative what units) else .ok ⟨units.toUInt64⟩

/-- The amount of an output. -/
def ReportedAmount.toAmount : ReportedAmount → Except BadAnswer Amount
  | coins value => Amount.ofCoins value
  | signed units => Amount.ofSigned .outputAmount units

/-! ## Balances -/

/-- The sum of two signed numbers, unless it needs more than 64 bits. -/
def checkedSum (a b : Int64) : Option Int64 :=
  let sum := a.toInt + b.toInt
  if Int64.minValue.toInt ≤ sum ∧ sum ≤ Int64.maxValue.toInt then some (a + b) else none

/-- A balance that makes sense. Both kinds of immature rewards are counted
together. -/
def ReportedBalance.toBalance : ReportedBalance → Except BadAnswer Balance
  | units total spendable immature => .ok ⟨⟨total⟩, ⟨spendable⟩, ⟨immature⟩⟩
  | signed total spendable coinbase stake _ _ _ =>
    match checkedSum coinbase stake with
    | none => .error .immatureOverflow
    | some immature => do
      let total ← Amount.ofSigned .totalBalance total
      let spendable ← Amount.ofSigned .spendableBalance spendable
      let immature ← Amount.ofSigned .immatureReward immature
      return ⟨total, spendable, immature⟩

/-! ## Outputs -/

/-- The output of an account that a row describes. -/
def ReportedOutput.toOutput (account : UInt32) (r : ReportedOutput) :
    Except BadAnswer UnspentOutput :=
  match Instant.ofUnix? r.received.toInt 0 with
  | none => .error (.invalidTime r.received r.toOutPoint)
  | some received => do
    let amount ← r.amount.toAmount
    return {
      toOutPoint := r.toOutPoint
      address := r.address
      script := r.script
      redeemScript := r.redeemScript
      amount
      confirmations := r.confirmations
      received
      spendable := r.spendable
      account }

/-- All outputs of an account, or why the first bad row is bad. -/
def outputsOfReport (account : UInt32) (rows : List ReportedOutput) :
    Except BadAnswer (List UnspentOutput) :=
  rows.mapM (ReportedOutput.toOutput account)

end Purse
