import Purse.Codec.Events
import Purse.Codec.Totals
import Purse.Proofs.Codec.Outputs

/-!
# What crosses a boundary arrives

The compact text of a value is read as that value (`Json.Recovers`): of what a selection hands
over and sums up, of the outputs of an account, of the balance of a wallet, of what an engine
announces and of what a page is told.

Main statement: `texts_recovered`.
-/

namespace Purse

open Json (fields?_record isExact_record sum?_nat)

/-- The compact text of the value is read as the value. -/
def Json.Recovers {α : Type} (encode : α → Json) (decode : Json → Option α) (x : α) : Prop :=
  (parse? (encode x).render).bind decode = some x

theorem Json.recovers_of_isExact {α : Type} {encode : α → Json} {decode : Json → Option α} {x : α}
    (hexact : (encode x).isExact) (h : decode (encode x) = some x) : Recovers encode decode x := by
  unfold Recovers
  rw [parse?_render hexact, Option.bind_some, h]

/-! ## Balances -/

/-- Sums have at most 128 bits. -/
structure WalletBalance.Fits (b : WalletBalance) : Prop where
  total : b.total < 2 ^ 128
  spendable : b.spendable < 2 ^ 128
  immature : b.immature < 2 ^ 128

theorem WalletBalance.ofJson?_toJson {b : WalletBalance} (h : b.Fits) :
    ofJson? b.toJson = some b := by
  unfold ofJson? toJson
  rw [fields?_record (by simp)]
  simp [List.lookup_cons, sum?_nat h.total, sum?_nat h.spendable, sum?_nat h.immature]

theorem WalletBalance.isExact_toJson (b : WalletBalance) : b.toJson.isExact := by
  unfold toJson
  rw [isExact_record]
  rfl

/-! ## Notifications and view events -/

theorem walletField?_record (w : WalletId) :
    walletField? (.record [("wallet_id", .nat w.toNat)]) = some w := by
  unfold walletField?
  rw [fields?_record (by simp)]
  simp [List.lookup_cons]

theorem walletAnd?_record {α : Type} {name : String} {decode : Json → Option α} {value : Json}
    {x : α} (hname : name ≠ "wallet_id") (h : decode value = some x) (w : WalletId) :
    walletAnd? name decode (.record [("wallet_id", .nat w.toNat), (name, value)]) = some (w, x) := by
  unfold walletAnd?
  rw [fields?_record (by simpa using hname.symm)]
  simp [List.lookup_cons, beq_false_of_ne hname, h]

theorem Notification.ofJson?_toJson (n : Notification) : ofJson? n.toJson = some n := by
  unfold ofJson? toJson
  cases n with
  | newTransaction w txid => simp [walletAnd?_record]
  | blockAttached w height => simp [walletAnd?_record]
  | mixerStarted w => simp [walletField?_record]
  | mixerEnded w => simp [walletField?_record]

theorem Notification.isExact_toJson (n : Notification) : n.toJson.isExact := by
  cases n <;> rfl

theorem ViewEvent.ofJson?_toJson (e : ViewEvent) : ofJson? e.toJson = some e := by
  unfold ofJson? toJson
  cases e with
  | accountsRefreshed w => simp [walletField?_record]
  | transactionsChanged w => simp [walletField?_record]
  | mixerStateChanged w running => simp [walletAnd?_record]
  | refreshFailed w reason => simp [walletAnd?_record]

theorem ViewEvent.isExact_toJson (e : ViewEvent) : e.toJson.isExact := by
  cases e <;> rfl

/-! ## Texts -/

/-- Whatever crosses the boundary as compact text arrives as it was sent. -/
theorem texts_recovered :
    (∀ s : Submission, s.Fits → Json.Recovers Submission.toJson Submission.ofJson? s) ∧
    (∀ s : Summary, s.Fits → Json.Recovers Summary.toJson Summary.ofJson? s) ∧
    (∀ g : Group, Json.Recovers Group.toJson Group.ofJson? g) ∧
    (∀ b : WalletBalance, b.Fits → Json.Recovers WalletBalance.toJson WalletBalance.ofJson? b) ∧
    (∀ n : Notification, Json.Recovers Notification.toJson Notification.ofJson? n) ∧
    ∀ e : ViewEvent, Json.Recovers ViewEvent.toJson ViewEvent.ofJson? e := by
  refine ⟨fun s h => ?_, fun s h => ?_, fun g => ?_, fun b h => ?_, fun n => ?_, fun e => ?_⟩
  · exact Json.recovers_of_isExact s.isExact_toJson (Submission.ofJson?_toJson h)
  · exact Json.recovers_of_isExact s.isExact_toJson (Summary.ofJson?_toJson h)
  · exact Json.recovers_of_isExact g.isExact_toJson g.ofJson?_toJson
  · exact Json.recovers_of_isExact b.isExact_toJson (WalletBalance.ofJson?_toJson h)
  · exact Json.recovers_of_isExact n.isExact_toJson n.ofJson?_toJson
  · exact Json.recovers_of_isExact e.isExact_toJson e.ofJson?_toJson

/-- An output from the first second of the calendar with the largest amount and outpoint. -/
def UnspentOutput.outermost : UnspentOutput where
  txid := "☃𝄞\n\x22"
  vout := 4294967295
  address := ""
  script := "0014"
  redeemScript := some "\x7f\x00"
  amount := ⟨18446744073709551615⟩
  confirmations := Int64.minValue
  received := ⟨Instant.first, 999999999, by decide, by decide⟩
  spendable := false
  account := 4294967295

/-- At the bounds of all numbers. -/
theorem texts_recovered_outermost :
    let s : Submission := ⟨7, [.outermost, .outermost], 2 ^ 128 - 1, .bytes (2 ^ 64 - 1)⟩
    let b : WalletBalance := ⟨2 ^ 128 - 1, 2 ^ 128 - 1, 0⟩
    let m : Summary := ⟨2 ^ 64 - 1, 2 ^ 128 - 1, .unavailable⟩
    (s.Fits ∧ Json.Recovers Submission.toJson Submission.ofJson? s) ∧
    (b.Fits ∧ Json.Recovers WalletBalance.toJson WalletBalance.ofJson? b) ∧
    (m.Fits ∧ Json.Recovers Summary.toJson Summary.ofJson? m) := by
  intro s b m
  have hs : s.Fits := ⟨by decide, by show 2 ^ 64 - 1 < UInt64.size; decide⟩
  have hb : b.Fits := ⟨by decide, by decide, by decide⟩
  have hm : m.Fits := ⟨by decide, by decide, trivial⟩
  obtain ⟨hsubmission, hsummary, -, hbalance, -⟩ := texts_recovered
  exact ⟨⟨hs, hsubmission s hs⟩, ⟨hb, hbalance b hb⟩, hm, hsummary m hm⟩

end Purse
