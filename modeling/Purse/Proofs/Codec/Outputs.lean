import Purse.Codec.Selection
import Purse.Proofs.Codec.Accounts
import Purse.Proofs.Instant.Text

/-!
# The texts of outputs and selections tell them

Each record is decoded field by field as it was written, whatever outputs, rows and texts it
holds; the receive time of an output is read from its own text (`Instant.ofText?_text`).
Counts and sums are numbers without a bound here, and the decoders accept 64 and 128 bits of
them (`Fits`).
-/

namespace Purse

open Json (fields?_record isExact_record areExact_eq natBelow?_nat sum?_nat)

/-! ## Outputs -/

@[simp]
theorem UnspentOutput.ofJson?_toJson (o : UnspentOutput) : ofJson? o.toJson = some o := by
  unfold ofJson? toJson
  rw [fields?_record (by simp)]
  simp [List.lookup_cons, Instant.ofText?_text]

theorem UnspentOutput.list?_toJson (outputs : List UnspentOutput) :
    (Json.array (outputs.map toJson)).list? ofJson? = some outputs :=
  Json.mapM_map ofJson?_toJson outputs

theorem UnspentOutput.isExact_toJson (o : UnspentOutput) : o.toJson.isExact := by
  have hredeem : ((o.redeemScript.map Json.text).getD .null).isExact := by
    cases o.redeemScript <;> rfl
  unfold toJson
  rw [isExact_record]
  simp [Json.isExact, Json.text, Json.nat, Amount.toJson, hredeem]

/-! ## Sizes -/

/-- A size has at most 64 bits. -/
def SizeEstimate.Fits : SizeEstimate → Prop
  | bytes count => count < UInt64.size
  | unavailable => True

theorem SizeEstimate.ofJson?_toJson {e : SizeEstimate} (h : e.Fits) : ofJson? e.toJson = some e := by
  cases e with
  | bytes count =>
    unfold ofJson? toJson
    simp [natBelow?_nat h]
  | unavailable => rfl

theorem SizeEstimate.isExact_toJson (e : SizeEstimate) : e.toJson.isExact := by
  cases e <;> rfl

/-! ## Rows and groups -/

theorem Row.ofJson?_toJson (r : Row) : ofJson? r.toJson = some r := by
  unfold ofJson? toJson
  rw [fields?_record (by simp)]
  simp [List.lookup_cons]

theorem Row.isExact_toJson (r : Row) : r.toJson.isExact := by
  unfold toJson
  rw [isExact_record]
  simp [Json.isExact, r.output.isExact_toJson]

theorem Group.ofJson?_toJson (g : Group) : ofJson? g.toJson = some g := by
  have hrows : (Json.array (g.rows.map Row.toJson)).list? Row.ofJson? = some g.rows :=
    Json.mapM_map Row.ofJson?_toJson g.rows
  unfold ofJson? toJson
  rw [fields?_record (by simp)]
  simp [List.lookup_cons, hrows]

theorem Group.isExact_toJson (g : Group) : g.toJson.isExact := by
  unfold toJson
  rw [isExact_record]
  simp [Json.isExact, Json.text, Json.nat, areExact_eq, Row.isExact_toJson]

/-! ## Selections -/

/-- A count has at most 64 bits, a sum at most 128. -/
structure Summary.Fits (s : Summary) : Prop where
  count : s.count < UInt64.size
  amount : s.amount < 2 ^ 128
  size : s.size.Fits

theorem Summary.ofJson?_toJson {s : Summary} (h : s.Fits) : ofJson? s.toJson = some s := by
  unfold ofJson? toJson
  rw [fields?_record (by simp)]
  simp [List.lookup_cons, natBelow?_nat h.count, sum?_nat h.amount,
    SizeEstimate.ofJson?_toJson h.size]

theorem Summary.isExact_toJson (s : Summary) : s.toJson.isExact := by
  unfold toJson
  rw [isExact_record]
  simp [Json.isExact, Json.nat, s.size.isExact_toJson]

/-- A sum has at most 128 bits. -/
structure Submission.Fits (s : Submission) : Prop where
  total : s.total < 2 ^ 128
  size : s.size.Fits

theorem Submission.ofJson?_toJson {s : Submission} (h : s.Fits) : ofJson? s.toJson = some s := by
  unfold ofJson? toJson
  rw [fields?_record (by simp)]
  simp [List.lookup_cons, UnspentOutput.list?_toJson, sum?_nat h.total,
    SizeEstimate.ofJson?_toJson h.size]

theorem Submission.isExact_toJson (s : Submission) : s.toJson.isExact := by
  unfold toJson
  rw [isExact_record]
  simp [Json.isExact, Json.nat, areExact_eq, UnspentOutput.isExact_toJson, s.size.isExact_toJson]

end Purse
