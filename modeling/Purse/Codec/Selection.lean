import Purse.Codec.Accounts
import Purse.Instant.Text
import Purse.Selection

/-!
# Outputs and selections as JSON
-/

namespace Purse

/-! ## Outputs -/

def OutPoint.toJson (p : OutPoint) : Json :=
  .record [("txid", .text p.txid), ("vout", .nat p.vout.toNat)]

def OutPoint.ofJson? (j : Json) : Option OutPoint := do
  match ← j.fields? ["txid", "vout"] with
  | [some txid, some vout] => return ⟨← txid.string?, ← vout.uint32?⟩
  | _ => none

def UnspentOutput.toJson (o : UnspentOutput) : Json :=
  .record [("txid", .text o.txid), ("vout", .nat o.vout.toNat), ("address", .text o.address),
    ("script_pub_key", .text o.script),
    ("redeem_script", (o.redeemScript.map Json.text).getD .null),
    ("amount", o.amount.toJson), ("confirmations", .integer o.confirmations.toInt),
    ("receive_time", .text o.received.text), ("spendable", .bool o.spendable),
    ("account_number", .nat o.account.toNat)]

/-- Only the redeem script may be missing. -/
def UnspentOutput.ofJson? (j : Json) : Option UnspentOutput := do
  match ← j.fields? ["txid", "vout", "address", "script_pub_key", "redeem_script", "amount",
      "confirmations", "receive_time", "spendable", "account_number"] with
  | [some txid, some vout, some address, some script, redeemScript, some amount,
      some confirmations, some received, some spendable, some account] =>
    return {
      txid := ← txid.string?
      vout := ← vout.uint32?
      address := ← address.string?
      script := ← script.string?
      redeemScript := ← (redeemScript.getD .null).optional? Json.string?
      amount := ← Amount.ofJson? amount
      confirmations := ← confirmations.int64?
      received := ← Instant.ofText? (← received.string?)
      spendable := ← spendable.bool?
      account := ← account.uint32? }
  | _ => none

/-! ## Sizes -/

def SizeEstimate.toJson : SizeEstimate → Json
  | bytes count => .record [("Bytes", .nat count)]
  | unavailable => .text "Unavailable"

def SizeEstimate.ofJson? (j : Json) : Option SizeEstimate := do
  let (name, contents) ← j.choice?
  match name, contents with
  | "Bytes", some count => return .bytes (← count.natBelow? UInt64.size)
  | "Unavailable", contents => if Json.isBare contents then some .unavailable else none
  | _, _ => none

/-! ## Rows and groups -/

def Row.toJson (r : Row) : Json :=
  .record [("output", r.output.toJson), ("selected", .bool r.selected)]

def Row.ofJson? (j : Json) : Option Row := do
  match ← j.fields? ["output", "selected"] with
  | [some output, some selected] => return ⟨← UnspentOutput.ofJson? output, ← selected.bool?⟩
  | _ => none

def Group.toJson (g : Group) : Json :=
  .record [("account_number", .nat g.account.toNat), ("account_name", .text g.name),
    ("rows", .array (g.rows.map Row.toJson))]

def Group.ofJson? (j : Json) : Option Group := do
  match ← j.fields? ["account_number", "account_name", "rows"] with
  | [some account, some name, some rows] =>
    return ⟨← account.uint32?, ← name.string?, ← rows.list? Row.ofJson?⟩
  | _ => none

/-! ## Sorting -/

def Column.toJson : Column → Json
  | amount => .text "Amount"
  | address => .text "Address"
  | confirmations => .text "Confirmations"
  | received => .text "ReceiveTime"

def Column.ofJson? (j : Json) : Option Column := do
  match ← j.bareChoice? with
  | "Amount" => some amount
  | "Address" => some address
  | "Confirmations" => some confirmations
  | "ReceiveTime" => some received
  | _ => none

def Direction.toJson : Direction → Json
  | ascending => .text "Ascending"
  | descending => .text "Descending"

def Direction.ofJson? (j : Json) : Option Direction := do
  match ← j.bareChoice? with
  | "Ascending" => some ascending
  | "Descending" => some descending
  | _ => none

/-! ## Selections -/

def Stage.toJson : Stage → Json
  | empty => .text "Empty"
  | loaded => .text "Loaded"
  | selecting => .text "Selecting"
  | submitted => .text "Submitted"

def Stage.ofJson? (j : Json) : Option Stage := do
  match ← j.bareChoice? with
  | "Empty" => some empty
  | "Loaded" => some loaded
  | "Selecting" => some selecting
  | "Submitted" => some submitted
  | _ => none

def Summary.toJson (s : Summary) : Json :=
  .record [("selected_count", .nat s.count), ("selected_amount", .nat s.amount),
    ("size_estimate", s.size.toJson)]

def Summary.ofJson? (j : Json) : Option Summary := do
  match ← j.fields? ["selected_count", "selected_amount", "size_estimate"] with
  | [some count, some amount, some size] =>
    return ⟨← count.natBelow? UInt64.size, ← amount.sum?, ← SizeEstimate.ofJson? size⟩
  | _ => none

def Submission.toJson (s : Submission) : Json :=
  .record [("wallet_id", .nat s.wallet.toNat), ("outputs", .array (s.outputs.map (·.toJson))),
    ("total", .nat s.total), ("size_estimate", s.size.toJson)]

def Submission.ofJson? (j : Json) : Option Submission := do
  match ← j.fields? ["wallet_id", "outputs", "total", "size_estimate"] with
  | [some wallet, some outputs, some total, some size] =>
    return {
      wallet := ← wallet.uint32?
      outputs := ← outputs.list? UnspentOutput.ofJson?
      total := ← total.sum?
      size := ← SizeEstimate.ofJson? size }
  | _ => none

end Purse
