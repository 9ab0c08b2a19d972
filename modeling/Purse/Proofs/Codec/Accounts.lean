import Purse.Codec.Accounts
import Purse.Proofs.Json.Decode
import Purse.Proofs.Json.Text
import Purse.Proofs.Registry.Refresh

/-!
# The text of a snapshot tells the snapshot

Each part of a snapshot is decoded as it was written, and what is written of it is exact.
An account's own properties stand in the same object as its wallet and its balance. They
are found there because all the names differ, and what is skipped on the way to the wallet
and the balance may be skipped.
-/

namespace Purse

open Json (fields?_record isExact_record areExact_eq isSound_nat)

/-! ## Parts of a snapshot -/

@[simp]
theorem Amount.ofJson?_toJson (a : Amount) : ofJson? a.toJson = some a := by
  simp [ofJson?, toJson, toNat]

@[simp]
theorem Balance.ofJson?_toJson (b : Balance) : ofJson? b.toJson = some b := by
  unfold ofJson? toJson
  rw [fields?_record (by simp)]
  simp [List.lookup_cons]

/-- An account's own properties are found wherever they are stored under their names. -/
theorem AccountInfo.ofJson?_record {fs : List (String × Json)} (a : AccountInfo)
    (h : (fs.map (·.1)).Nodup) (hfs : fieldNames.map (fs.lookup ·) = a.fields.map (some ·.2)) :
    ofJson? (.record fs) = some a := by
  unfold ofJson?
  rw [fields?_record h, hfs]
  simp [fields]

/-- What stands beside the wallet and the balance may be skipped. -/
theorem AccountInfo.haveSound_fields (a : AccountInfo) (depth : Nat) :
    Json.haveSound depth (a.fields.map fun f => (some f.1, f.2)) := by
  have hsound : ∀ n : UInt32, (Json.nat n.toNat).isSound depth := fun n =>
    isSound_nat (Nat.lt_trans n.toNat_lt_size (by decide)) depth
  simp [fields, Json.haveSound, hsound]

theorem Account.ofJson?_toJson (depth : Nat) (a : Account) : ofJson? depth a.toJson = some a := by
  let fs := ("wallet_id", .nat a.wallet.toNat) :: (a.toAccountInfo.fields ++
    [("balance", a.balance.toJson)])
  have hnodup : (fs.map (·.1)).Nodup := by
    simp [fs, AccountInfo.fields]
  have hwallet : (Json.record fs).fields? ["wallet_id", "balance"] =
      some [some (.nat a.wallet.toNat), some a.balance.toJson] := by
    rw [fields?_record hnodup]
    simp [fs, AccountInfo.fields, List.lookup_cons]
  have hinfo : AccountInfo.ofJson? (.record fs) = some a.toAccountInfo := by
    apply AccountInfo.ofJson?_record _ hnodup
    simp [fs, AccountInfo.fieldNames, AccountInfo.fields, List.lookup_cons]
  have hothers : ((fs.map fun f => ((some f.1 : Json.Text), f.2)).filter fun f =>
      f.1 ≠ some "wallet_id" ∧ f.1 ≠ some "balance") =
      a.toAccountInfo.fields.map fun f => (some f.1, f.2) := by
    simp [fs, AccountInfo.fields]
  have hsound := a.toAccountInfo.haveSound_fields depth
  rw [← hothers] at hsound
  show ofJson? depth (.object (fs.map fun f => (some f.1, f.2))) = some a
  unfold ofJson?
  show ((Json.record fs).fields? ["wallet_id", "balance"]).bind _ = _
  rw [hwallet, Option.bind_some]
  show ((Json.nat a.wallet.toNat).uint32?).bind _ = _
  rw [Json.uint32?_toNat, Option.bind_some, Balance.ofJson?_toJson]
  show (AccountInfo.ofJson? (.record fs)).bind _ = _
  rw [hinfo, Option.bind_some, if_pos hsound]

theorem Account.list?_toJson (accounts : List Account) (depth : Nat) :
    (Json.array (accounts.map toJson)).list? (ofJson? depth) = some accounts :=
  Json.mapM_map (ofJson?_toJson depth) accounts

theorem Accounts.ofJson?_toJson (s : Accounts) : ofJson? s.toJson = some s := by
  unfold ofJson? toJson
  rw [fields?_record (by simp)]
  simp [List.lookup_cons, Account.list?_toJson, Digest.ofText?_text]

/-! ## The text -/

theorem Balance.isExact_toJson (b : Balance) : b.toJson.isExact := by
  unfold toJson
  rw [isExact_record]
  rfl

theorem Account.isExact_toJson (a : Account) : a.toJson.isExact := by
  unfold toJson
  rw [isExact_record]
  simp [AccountInfo.fields, Json.isExact, Json.nat, Json.text, a.balance.isExact_toJson]

theorem Accounts.isExact_toJson (s : Accounts) : s.toJson.isExact := by
  unfold toJson
  rw [isExact_record]
  simp [Json.isExact, Json.text, areExact_eq, Account.isExact_toJson]

theorem Accounts.ofText_toText (s : Accounts) : ofText s.toText = .ok s := by
  unfold ofText toText
  rw [Json.parse?_render s.isExact_toJson, Option.bind_some, ofJson?_toJson]

theorem Accounts.toText_injective : Function.Injective toText := by
  intro s s' h
  have hread := ofText_toText s
  rw [h, ofText_toText] at hread
  cases hread
  rfl

/-! ## The text of the last picture -/

namespace Registry

variable {ε : Type} [Engine ε]

/-- A text tells the picture that reading finds from then on; no text fails for another
reason than the picture. -/
theorem accountsText_exec (ticket : Nat) (w : WalletId) (s : Registry ε) :
    match (accountsText ticket w).exec s with
    | (.ok text, s') => ∃ p, Accounts.ofText text = .ok p ∧ (accounts w).exec s' = (.ok p, s')
    | (.error f, s') => (accountsOrRefresh ticket w).exec s = (.error f, s') := by
  unfold accountsText
  cases h : (accountsOrRefresh ticket w).exec s with
  | mk o s' =>
    cases o with
    | error f =>
      rw [exec_bind_error h]
    | ok p =>
      rw [exec_bind_ok h, exec_pure]
      refine ⟨p, p.ofText_toText, accounts_exec_some ?_⟩
      rw [accountsOrRefresh_exec] at h
      cases hp : s.snapshot? w with
      | some q =>
        rw [hp] at h
        cases h
        exact hp
      | none =>
        rw [hp] at h
        exact refresh_exec_ok h

/-- Whatever others do in between, a text tells a picture that could have been answered. -/
theorem accountsText_ends {ticket : Nat} {w : WalletId} {s s' : Registry ε} {text : String}
    (h : ((accountsText ticket w).run s).Ends (.ok text) s') :
    ∃ p, Accounts.ofText text = .ok p ∧ ((accountsOrRefresh ticket w).run s).Ends (.ok p) s' := by
  obtain ⟨p, s₁, hp, htext⟩ := Op.bind_ends h
  cases htext
  exact ⟨p, p.ofText_toText, hp⟩

end Registry

/-- The text of a snapshot tells the snapshot. A text that is asked for tells what
reading finds from then on and, whatever others do in between, a picture that could have
been answered. -/
theorem Accounts.text_round_trip :
    (∀ s : Accounts, ofText s.toText = .ok s) ∧ Function.Injective toText ∧
    ∀ {ε : Type} [Engine ε] (ticket : Nat) (w : WalletId) (s : Registry ε),
      (match (Registry.accountsText ticket w).exec s with
        | (.ok text, s') => ∃ p, ofText text = .ok p ∧ (Registry.accounts w).exec s' = (.ok p, s')
        | (.error f, s') => (Registry.accountsOrRefresh ticket w).exec s = (.error f, s')) ∧
      ∀ text s', ((Registry.accountsText ticket w).run s).Ends (.ok text) s' →
        ∃ p, ofText text = .ok p ∧ ((Registry.accountsOrRefresh ticket w).run s).Ends (.ok p) s' := by
  refine ⟨ofText_toText, toText_injective, fun ticket w s => ⟨?_, fun text s' h => ?_⟩⟩
  · exact Registry.accountsText_exec ticket w s
  · exact Registry.accountsText_ends h

end Purse
