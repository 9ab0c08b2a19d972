import Mathlib.Algebra.GroupWithZero.Nat
import Purse.Proofs.Registry.Gathering
import Purse.Totals

/-!
# Totals of wallets

A total across wallets is the sum over all accounts in their pictures, where the pictures that
are missing are taken on the way (`Totalled`), and so are the balances of a single wallet
(`Counted`). What follows from the way the pictures are gathered is put together in
`totals_counted`: which wallets are refreshed and what was asked, what a failure leaves, and
that asking again takes no picture, so that neither the order nor the grouping of the wallets
makes a difference.

Sums are natural numbers here. With fewer than `2 ^ 64` accounts no sum reaches `2 ^ 128`,
whichever of the accounts have been added so far (`sum_lt`).
-/

namespace Purse

/-! ## Sums -/

/-- One amount of all accounts in a picture, added up. -/
def Accounts.sum (p : Accounts) (f : Balance → Amount) : Nat :=
  (p.accounts.map fun a => (f a.balance).toNat).sum

theorem WalletBalance.foldl_add (accounts : List Account) (b : WalletBalance) :
    accounts.foldl add b =
      ⟨b.total + (accounts.map (·.balance.total.toNat)).sum,
        b.spendable + (accounts.map (·.balance.spendable.toNat)).sum,
        b.immature + (accounts.map (·.balance.immature.toNat)).sum⟩ := by
  induction accounts generalizing b with
  | nil => rfl
  | cons a accounts ih =>
    rw [List.foldl_cons, ih]
    simp only [add, List.map_cons, List.sum_cons, Nat.add_assoc]

theorem WalletBalance.ofAccounts_eq (p : Accounts) :
    ofAccounts p.accounts = ⟨p.sum (·.total), p.sum (·.spendable), p.sum (·.immature)⟩ := by
  unfold ofAccounts Accounts.sum
  rw [foldl_add]
  simp only [Nat.zero_add]

/-- Fewer than `2 ^ 64` amounts add up to less than `2 ^ 128`. -/
theorem sum_lt {accounts part : List Account} (h : accounts.length < 2 ^ 64)
    (hpart : part.Sublist accounts) (f : Balance → Amount) :
    (part.map fun a => (f a.balance).toNat).sum < 2 ^ 128 := by
  have hbound : (part.map fun a => (f a.balance).toNat).sum ≤ part.length * (2 ^ 64 - 1) := by
    clear h hpart
    induction part with
    | nil => simp
    | cons a part ih =>
      have ha : (f a.balance).toNat < 2 ^ 64 := (f a.balance).units.toNat_lt
      rw [List.map_cons, List.sum_cons, List.length_cons, Nat.succ_mul]
      omega
  have hlength : part.length ≤ 2 ^ 64 - 1 := by
    have := hpart.length_le
    omega
  have hproduct := Nat.mul_le_mul_right (2 ^ 64 - 1) hlength
  omega

namespace Registry

variable {ε : Type} {s s' : Registry ε} {w : WalletId} {ticket : Nat} {ids : List WalletId}

/-- The accounts in the picture of a wallet. -/
def accountsOf (s : Registry ε) (w : WalletId) : List Account :=
  ((s.snapshot? w).map (·.accounts)).getD []

/-- The sum over all accounts of wallets; a wallet named twice counts twice. -/
def totalOf (s : Registry ε) (ids : List WalletId) : Nat :=
  ((ids.flatMap s.accountsOf).map (·.balance.total.toNat)).sum

theorem totalOf_append (s : Registry ε) (ids ids' : List WalletId) :
    s.totalOf (ids ++ ids') = s.totalOf ids + s.totalOf ids' := by
  unfold totalOf
  rw [List.flatMap_append, List.map_append, List.sum_append]

theorem totalOf_perm (s : Registry ε) {ids ids' : List WalletId} (h : ids.Perm ids') :
    s.totalOf ids = s.totalOf ids' := by
  unfold totalOf
  exact ((h.flatMap_right _).map _).sum_nat

theorem totalOf_singleton {p : Accounts} (h : s.snapshot? w = some p) :
    s.totalOf [w] = p.sum (·.total) := by
  unfold totalOf accountsOf Accounts.sum
  rw [List.flatMap_singleton, h]
  rfl

theorem totalOf_pictures {ps : List Accounts} (h : ids.map s.snapshot? = ps.map some) :
    (ps.map (·.sum (·.total))).sum = s.totalOf ids := by
  induction ids generalizing ps with
  | nil =>
    cases ps with
    | nil => rfl
    | cons p ps => cases h
  | cons w ids ih =>
    cases ps with
    | nil => cases h
    | cons p ps =>
      rw [List.map_cons, List.map_cons] at h
      obtain ⟨hp, hps⟩ := List.cons.inj h
      rw [List.map_cons, List.sum_cons, ih hps, ← totalOf_singleton hp]
      exact (s.totalOf_append [w] ids).symm

/-- Where all wallets have pictures, these can be listed. -/
theorem pictures_of_isSome (h : ∀ w ∈ ids, (s.snapshot? w).isSome) :
    ∃ ps : List Accounts, ids.map s.snapshot? = ps.map some := by
  induction ids with
  | nil => exact ⟨[], rfl⟩
  | cons w ids ih =>
    obtain ⟨p, hp⟩ := Option.isSome_iff_exists.mp (h w List.mem_cons_self)
    obtain ⟨ps, hps⟩ := ih fun w' hw' => h w' (List.mem_cons_of_mem _ hw')
    exact ⟨p :: ps, by rw [List.map_cons, hp, hps, List.map_cons]⟩

variable [Engine ε]

/-! ## Balances from pictures -/

theorem walletBalance_exec {o : Outcome Accounts}
    (h : (accountsOrRefresh ticket w).exec s = (o, s')) :
    (walletBalance ticket w).exec s =
      (o.map fun p => ⟨p.sum (·.total), p.sum (·.spendable), p.sum (·.immature)⟩, s') := by
  have hbalance : (fun p : Accounts => WalletBalance.ofAccounts p.accounts) =
      fun p => ⟨p.sum (·.total), p.sum (·.spendable), p.sum (·.immature)⟩ :=
    funext WalletBalance.ofAccounts_eq
  rw [← hbalance]
  exact exec_map h _

theorem totalForWallet_exec {o : Outcome Accounts}
    (h : (accountsOrRefresh ticket w).exec s = (o, s')) :
    (totalForWallet ticket w).exec s = (o.map (·.sum (·.total)), s') := by
  have hmap := exec_map (walletBalance_exec h) (·.total)
  cases o <;> exact hmap

theorem spendableForWallet_exec {o : Outcome Accounts}
    (h : (accountsOrRefresh ticket w).exec s = (o, s')) :
    (spendableForWallet ticket w).exec s = (o.map (·.sum (·.spendable)), s') := by
  have hmap := exec_map (walletBalance_exec h) (·.spendable)
  cases o <;> exact hmap

theorem immatureForWallet_exec {o : Outcome Accounts}
    (h : (accountsOrRefresh ticket w).exec s = (o, s')) :
    (immatureForWallet ticket w).exec s = (o.map (·.sum (·.immature)), s') := by
  have hmap := exec_map (walletBalance_exec h) (·.immature)
  cases o <;> exact hmap

/-- A total across wallets is made of the pictures that are gathered. -/
theorem totalAcross_exec {o : Outcome (List Accounts)} (h : (gather ticket ids).exec s = (o, s')) :
    (totalAcross ticket ids).exec s = (o.map fun ps => (ps.map (·.sum (·.total))).sum, s') := by
  unfold gather at h
  induction ids generalizing s o with
  | nil =>
    cases h
    rfl
  | cons w ids ih =>
    rw [List.mapM_cons] at h
    unfold totalAcross
    cases hw : (accountsOrRefresh ticket w).exec s with
    | mk o₁ s₁ =>
      have htotal := totalForWallet_exec hw
      cases o₁ with
      | error f =>
        rw [exec_bind_error hw] at h
        cases h
        exact exec_bind_error htotal _
      | ok p =>
        rw [exec_bind_ok hw] at h
        rw [exec_bind_ok htotal]
        cases hrest : (ids.mapM (accountsOrRefresh ticket)).exec s₁ with
        | mk o₂ s₂ =>
          cases h.symm.trans (exec_map hrest (p :: ·))
          have hmap := exec_map (ih hrest) (p.sum (·.total) + ·)
          cases o₂ <;> exact hmap

/-- Where all wallets have pictures the total is read off, and nothing happens. -/
theorem totalAcross_exec_shown (h : ∀ w ∈ ids, (s.snapshot? w).isSome) (ticket : Nat) :
    (totalAcross ticket ids).exec s = (.ok (s.totalOf ids), s) := by
  obtain ⟨ps, hps⟩ := pictures_of_isSome h
  rw [totalAcross_exec (gather_exec_shown hps ticket), ← totalOf_pictures hps]
  rfl

/-! ## What a total is -/

/-- What there is to say of a total across wallets: the refreshes on the way, what comes of
them, and what is found when it is asked for again. -/
structure Totalled (ticket : Nat) (s : Registry ε) (ids : List WalletId) (loads : List (Load ε))
    (o : Outcome Nat) (s' : Registry ε) : Prop where
  exec : (totalAcross ticket ids).exec s = (o, s')
  /-- One refresh begins where the one before it has ended. -/
  leads : Leads Load.found Load.left s loads s'
  goes : ∀ l ∈ loads, l.Goes ticket
  same : SameWallets s s'
  snapshots : ∀ w, s'.snapshot? w = (s.snapshot? w).or (loads.findSome? (·.picture? w))
  talks : ∀ n e, s.engines[n]? = some e → ∃ e', s'.engines[n]? = some e' ∧
    Engine.Talk e (loads.flatMap (·.exchangesWith n)) e'
  /-- Every wallet without a picture was refreshed once, where it occurs first. -/
  success : ∀ total, o = .ok total → loads.map (·.wallet) = s.missing ids ∧
    (∀ l ∈ loads, ∃ p, l.outcome = .ok p) ∧ (∀ w ∈ ids, (s'.snapshot? w).isSome) ∧
    total = s'.totalOf ids
  /-- The first wallet without a picture that could not be refreshed has ended it all. The
  wallets before it have their pictures, and no other wallet has a new one. -/
  failure : ∀ f, o = .error f → ∃ pre post done l, ids = pre ++ l.wallet :: post ∧
    l.wallet ∉ pre ∧ s.snapshot? l.wallet = none ∧ loads = done ++ [l] ∧ l.outcome = .error f ∧
    done.map (·.wallet) = s.missing pre ∧ (∀ d ∈ done, ∃ p, d.outcome = .ok p) ∧
    (∀ w ∈ pre, (s'.snapshot? w).isSome) ∧ ∀ w, w ∉ pre → s'.snapshot? w = s.snapshot? w
  /-- With fewer than `2 ^ 64` accounts no sum on the way is too great. -/
  fits : (ids.flatMap s'.accountsOf).length < 2 ^ 64 →
    ∀ part : List Account, part.Sublist (ids.flatMap s'.accountsOf) →
      (part.map (·.balance.total.toNat)).sum < 2 ^ 128
  /-- Asking again for any of the wallets only reads. -/
  again : ∀ total, o = .ok total → ∀ ticket' ids', (∀ w ∈ ids', w ∈ ids) →
    (totalAcross ticket' ids').exec s' = (.ok (s'.totalOf ids'), s')
  permuted : ∀ total, o = .ok total → ∀ ticket' ids', ids'.Perm ids →
    (totalAcross ticket' ids').exec s' = (.ok total, s')
  joined : ∀ total, o = .ok total → ∀ ticket' pre post, (∀ w ∈ pre ++ post, w ∈ ids) → ∃ a b,
    (totalAcross ticket' pre).exec s' = (.ok a, s') ∧
    (totalAcross ticket' post).exec s' = (.ok b, s') ∧
    (totalAcross ticket' (pre ++ post)).exec s' = (.ok (a + b), s')

theorem totalAcross_totalled (hs : s.Sound) (ticket : Nat) (ids : List WalletId) :
    ∃ loads o s', Totalled ticket s ids loads o s' := by
  obtain ⟨loads, o, s', hgathering, hexec⟩ := gather_exec hs ticket ids
  have hshown {total : Nat}
      (ho : o.map (fun ps : List Accounts => (ps.map (·.sum (·.total))).sum) = .ok total) :
      loads.map (·.wallet) = s.missing ids ∧ (∀ l ∈ loads, ∃ p, l.outcome = .ok p) ∧
        (∀ w ∈ ids, (s'.snapshot? w).isSome) ∧ total = s'.totalOf ids := by
    cases o with
    | error f => cases ho
    | ok ps =>
      cases ho
      obtain ⟨hloads, hok, hpictures⟩ := hgathering.success rfl
      exact ⟨hloads, hok, hgathering.shows rfl, totalOf_pictures hpictures⟩
  refine ⟨loads, _, s', {
    exec := totalAcross_exec hexec
    leads := hgathering.leads
    goes := hgathering.goes
    same := hgathering.same
    snapshots := hgathering.snapshots
    talks := fun _ _ => hgathering.talks
    success := fun _ => hshown
    failure := ?failure
    fits := fun hlength part hpart => sum_lt hlength hpart (·.total)
    again := ?again
    permuted := ?permuted
    joined := ?joined }⟩
  case failure =>
    intro f ho
    cases o with
    | ok ps => cases ho
    | error f' =>
      cases ho
      exact hgathering.failure rfl
  case again =>
    intro total ho ticket' ids' hids'
    obtain ⟨-, -, hsome, -⟩ := hshown ho
    exact totalAcross_exec_shown (fun w hw => hsome w (hids' w hw)) ticket'
  case permuted =>
    intro total ho ticket' ids' hperm
    obtain ⟨-, -, hsome, htotal⟩ := hshown ho
    rw [htotal, ← totalOf_perm s' hperm]
    exact totalAcross_exec_shown (fun w hw => hsome w (hperm.subset hw)) ticket'
  case joined =>
    intro total ho ticket' pre post hids'
    obtain ⟨-, -, hsome, -⟩ := hshown ho
    have hsome' : ∀ w ∈ pre ++ post, (s'.snapshot? w).isSome := fun w hw => hsome w (hids' w hw)
    refine ⟨s'.totalOf pre, s'.totalOf post, ?_, ?_, ?_⟩
    · exact totalAcross_exec_shown (fun w hw => hsome' w (List.mem_append_left _ hw)) ticket'
    · exact totalAcross_exec_shown (fun w hw => hsome' w (List.mem_append_right _ hw)) ticket'
    · rw [← totalOf_append]
      exact totalAcross_exec_shown hsome' ticket'

/-- What there is to say of the balances of one wallet, of which there is a picture or which
is refreshed once. -/
structure Counted (ticket : Nat) (s : Registry ε) (w : WalletId) (loads : List (Load ε))
    (o : Outcome Accounts) (s' : Registry ε) : Prop where
  shown : ∀ p, s.snapshot? w = some p → loads = [] ∧ o = .ok p ∧ s' = s
  loaded : s.snapshot? w = none → ∃ l, loads = [l] ∧ l.Goes ticket ∧ l.wallet = w ∧
    l.found = s ∧ l.outcome = o ∧ l.left = s'
  balance : (walletBalance ticket w).exec s =
    (o.map fun p => ⟨p.sum (·.total), p.sum (·.spendable), p.sum (·.immature)⟩, s')
  total : (totalForWallet ticket w).exec s = (o.map (·.sum (·.total)), s')
  spendable : (spendableForWallet ticket w).exec s = (o.map (·.sum (·.spendable)), s')
  immature : (immatureForWallet ticket w).exec s = (o.map (·.sum (·.immature)), s')
  /-- With fewer than `2 ^ 64` accounts no sum on the way is too great. -/
  fits : ∀ p, o = .ok p → p.accounts.length < 2 ^ 64 →
    ∀ part : List Account, part.Sublist p.accounts → ∀ f : Balance → Amount,
      (part.map fun a => (f a.balance).toNat).sum < 2 ^ 128
  /-- Asking again only reads. -/
  again : ∀ p, o = .ok p → ∀ ticket', (walletBalance ticket' w).exec s' =
    (.ok ⟨p.sum (·.total), p.sum (·.spendable), p.sum (·.immature)⟩, s')

theorem walletBalance_counted (hs : s.Sound) (ticket : Nat) (w : WalletId) :
    ∃ loads o s', Counted ticket s w loads o s' := by
  cases hp : s.snapshot? w with
  | some p =>
    have hexec := accountsOrRefresh_shown hp ticket
    refine ⟨[], .ok p, s, ?_, ?_, walletBalance_exec hexec, totalForWallet_exec hexec,
      spendableForWallet_exec hexec, immatureForWallet_exec hexec, ?_, ?_⟩
    · intro p' hp'
      cases hp.symm.trans hp'
      exact ⟨rfl, rfl, rfl⟩
    · intro hnone
      cases hp.symm.trans hnone
    · intro p' _ hlength part hpart f
      exact sum_lt hlength hpart f
    · intro p' ho ticket'
      cases ho
      exact walletBalance_exec (accountsOrRefresh_shown hp ticket')
  | none =>
    obtain ⟨l, rfl, rfl, -, hgoes⟩ := refresh_goes hs ticket w
    have hexec := hgoes.answered hp
    refine ⟨[l], l.outcome, l.left, ?_, ?_, walletBalance_exec hexec, totalForWallet_exec hexec,
      spendableForWallet_exec hexec, immatureForWallet_exec hexec, ?_, ?_⟩
    · intro p hp'
      cases hp.symm.trans hp'
    · exact fun _ => ⟨l, rfl, hgoes, rfl, rfl, rfl, rfl⟩
    · intro p _ hlength part hpart f
      exact sum_lt hlength hpart f
    · intro p ho ticket'
      exact walletBalance_exec (accountsOrRefresh_shown (hgoes.shown ho) ticket')

/-- Totals across wallets, and the balances of one wallet, are what they should be in any
sound registry, whatever its engines answer. -/
theorem totals_counted (hs : s.Sound) (ticket : Nat) :
    (∀ ids, ∃ loads o s', Totalled ticket s ids loads o s') ∧
    ∀ w, ∃ loads o s', Counted ticket s w loads o s' :=
  ⟨totalAcross_totalled hs ticket, walletBalance_counted hs ticket⟩

/-- Two wallets, of which the second has no picture yet. -/
def half : Registry InMemoryEngine where
  config := {}
  engines := [
    { asset := .btc
      accounts := [{ number := 0, name := "a", balance := .units 500 500 0 }]
      blockHash := default
      blockHeight := 5 },
    { asset := .dcr
      accounts := [
        { number := 0, name := "a", balance := .signed 700 600 0 0 0 0 0 },
        { number := 1, name := "b", balance := .signed 4 0 1 2 0 0 0 }]
      blockHash := default
      blockHeight := 5 }]
  registrations := [
    { access := ⟨0, .btc, .mainnet⟩
      snapshot := some ⟨[⟨⟨0, "a", 20, 20, 0⟩, 7, ⟨⟨300⟩, ⟨300⟩, ⟨0⟩⟩⟩], default, 4⟩ },
    { access := ⟨1, .dcr, .mainnet⟩ }]
  wallets := [(7, 0), (8, 1)]

theorem sound_half : half.Sound :=
  sound_of_nodup (by decide) (by decide) (by decide)

/-- The second wallet is refreshed once and counts twice, the first counts as of its picture;
a wallet that is not loaded ends it all. -/
theorem totals_counted_half :
    half.Sound ∧
    (∃ loads s', Totalled 0 half [8, 7, 8] loads (.ok 1708) s' ∧ loads.map (·.wallet) = [8]) ∧
    (∃ loads s', Totalled 0 half [7, 8, 9, 7] loads (.error (.notFound (.wallet 9))) s') ∧
    ∃ loads o s', Counted 0 half 8 loads o s' := by
  have htotals := totals_counted sound_half 0
  refine ⟨sound_half, ?_, ?_, htotals.2 8⟩
  · obtain ⟨loads, o, s', h⟩ := htotals.1 [8, 7, 8]
    have ho : o = .ok 1708 := (congrArg Prod.fst h.exec).symm
    subst ho
    exact ⟨loads, s', h, (h.success _ rfl).1⟩
  · obtain ⟨loads, o, s', h⟩ := htotals.1 [7, 8, 9, 7]
    have ho : o = .error (.notFound (.wallet 9)) := (congrArg Prod.fst h.exec).symm
    subst ho
    exact ⟨loads, s', h⟩

end Registry

end Purse
