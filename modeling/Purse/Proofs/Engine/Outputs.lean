import Mathlib.Data.List.Forall2
import Purse.Engine.Report

/-!
# Outputs are taken over row by row

A list of outputs that is accepted has one output for every row, in the same order, and each
says what its row says (`takenOver_of_report`).
-/

namespace Purse

/-- The output of an account that a row is taken over as. -/
structure UnspentOutput.TakenOver (account : UInt32) (r : ReportedOutput) (o : UnspentOutput) :
    Prop where
  point : o.toOutPoint = r.toOutPoint
  address : o.address = r.address
  script : o.script = r.script
  redeemScript : o.redeemScript = r.redeemScript
  amount : r.amount.toAmount = .ok o.amount
  confirmations : o.confirmations = r.confirmations
  /-- Rows state whole seconds. -/
  received : o.received.seconds = r.received.toInt ∧ o.received.nanos = 0
  spendable : o.spendable = r.spendable
  account : o.account = account

theorem takenOver_of_toOutput {account : UInt32} {r : ReportedOutput} {o : UnspentOutput}
    (h : r.toOutput account = .ok o) : o.TakenOver account r := by
  unfold ReportedOutput.toOutput at h
  cases hreceived : Instant.ofUnix? r.received.toInt 0 with
  | none =>
    rw [hreceived] at h
    cases h
  | some received =>
    rw [hreceived] at h
    cases hamount : r.amount.toAmount with
    | error f =>
      rw [hamount] at h
      cases h
    | ok amount =>
      rw [hamount] at h
      cases h
      unfold Instant.ofUnix? at hreceived
      split at hreceived
      · cases hreceived
        exact ⟨rfl, rfl, rfl, rfl, hamount, rfl, ⟨rfl, rfl⟩, rfl, rfl⟩
      · cases hreceived

/-- Rows are taken over one by one and all of them. -/
theorem takenOver_of_report {account : UInt32} {rows : List ReportedOutput}
    {outputs : List UnspentOutput} (h : outputsOfReport account rows = .ok outputs) :
    List.Forall₂ (UnspentOutput.TakenOver account) rows outputs := by
  unfold outputsOfReport at h
  induction rows generalizing outputs with
  | nil =>
    rw [List.mapM_nil] at h
    cases h
    exact .nil
  | cons r rows ih =>
    rw [List.mapM_cons] at h
    cases hr : r.toOutput account with
    | error f =>
      rw [hr] at h
      cases h
    | ok o =>
      cases hrows : rows.mapM (ReportedOutput.toOutput account) with
      | error f =>
        rw [hr, hrows] at h
        cases h
      | ok rest =>
        rw [hr, hrows] at h
        cases h
        exact .cons (takenOver_of_toOutput hr) (ih hrows)

theorem accounts_of_report {account : UInt32} {rows : List ReportedOutput}
    {outputs : List UnspentOutput} (h : outputsOfReport account rows = .ok outputs) :
    ∀ o ∈ outputs, o.account = account := by
  have hrows := (takenOver_of_report h).flip.imp fun _ _ ho => And.intro ho.account ho
  exact ((List.forall₂_and_left _ _).mp hrows).1

end Purse
