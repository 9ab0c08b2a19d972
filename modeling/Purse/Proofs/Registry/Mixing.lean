import Mathlib.Data.List.Induction
import Purse.Proofs.Registry.Totals

/-!
# The two accounts of a mixer

Accounts are gone through once, and what was noted of one of the two numbers is overwritten
whenever the number comes again. So of all accounts with a number the last one counts
(`splitMixing_eq`), and accounts that have neither number leave no trace. Both amounts together
are never more than the wallet holds; while numbers are not repeated they are that part of the
total that is in the two accounts, in whichever order the accounts come.

Main statement: `splitMixing_accounts`.
-/

namespace Purse

/-- Whether an account is one of the two between which a wallet mixes. -/
def MixerAccounts.concerns (m : MixerAccounts) (a : Account) : Bool :=
  a.number = m.mixed || a.number = m.unmixed

/-- The total of the last account with the number, or nothing if there is none. -/
def lastTotal (accounts : List Account) (number : UInt32) : Amount :=
  ((accounts.filter (·.number = number)).getLast?.map (·.balance.total)).getD .zero

variable {accounts accounts' : List Account} {a : Account} {m : MixerAccounts} {number : UInt32}

/-! ## One more account -/

theorem lastTotal_concat (accounts : List Account) (a : Account) (number : UInt32) :
    lastTotal (accounts ++ [a]) number =
      if a.number = number then a.balance.total else lastTotal accounts number := by
  unfold lastTotal
  rw [List.filter_append]
  by_cases h : a.number = number
  · rw [if_pos h, List.filter_cons_of_pos (by simpa using h), List.filter_nil,
      List.getLast?_concat]
    rfl
  · rw [if_neg h, List.filter_cons_of_neg (by simpa using h), List.filter_nil, List.append_nil]

theorem splitMixing_concat (accounts : List Account) (a : Account) (m : MixerAccounts) :
    splitMixing (accounts ++ [a]) m = (splitMixing accounts m).note m a :=
  List.foldl_concat ..

theorem total_concat (accounts : List Account) (a : Account) :
    (WalletBalance.ofAccounts (accounts ++ [a])).total =
      (WalletBalance.ofAccounts accounts).total + a.balance.total.toNat :=
  congrArg WalletBalance.total (List.foldl_concat ..)

/-- The last account with a number counts. If both numbers are the same, it counts as mixed. -/
theorem splitMixing_eq (accounts : List Account) (m : MixerAccounts) :
    splitMixing accounts m = ⟨lastTotal accounts m.mixed,
      if m.unmixed = m.mixed then .zero else lastTotal accounts m.unmixed⟩ := by
  induction accounts using List.reverseRecOn with
  | nil =>
    show (⟨.zero, .zero⟩ : MixingBalances) = ⟨.zero, if m.unmixed = m.mixed then .zero else .zero⟩
    rw [ite_self]
  | append_singleton accounts a ih =>
    rw [splitMixing_concat, ih, lastTotal_concat, lastTotal_concat]
    unfold MixingBalances.note
    by_cases hmixed : a.number = m.mixed
    · rw [if_pos hmixed, if_pos hmixed]
      by_cases hsame : m.unmixed = m.mixed
      · rw [if_pos hsame, if_pos hsame]
      · have hne : ¬a.number = m.unmixed := fun h => hsame (h.symm.trans hmixed)
        rw [if_neg hsame, if_neg hsame, if_neg hne]
    · rw [if_neg hmixed, if_neg hmixed]
      by_cases hunmixed : a.number = m.unmixed
      · have hsame : ¬m.unmixed = m.mixed := fun h => hmixed (hunmixed.trans h)
        rw [if_pos hunmixed, if_pos hunmixed, if_neg hsame, if_neg hsame]
      · rw [if_neg hunmixed, if_neg hunmixed]

/-! ## Accounts of other numbers -/

theorem lastTotal_concerned (accounts : List Account)
    (h : ∀ a : Account, a.number = number → m.concerns a = true) :
    lastTotal (accounts.filter m.concerns) number = lastTotal accounts number := by
  have hfilter : (accounts.filter m.concerns).filter (·.number = number) =
      accounts.filter (·.number = number) := by
    rw [List.filter_filter]
    refine List.filter_congr fun a _ => ?_
    by_cases ha : a.number = number
    · simp [ha, h a ha]
    · simp [ha]
  unfold lastTotal
  rw [hfilter]

/-- What is neither of the two accounts may as well not be there. -/
theorem splitMixing_concerned (accounts : List Account) (m : MixerAccounts) :
    splitMixing (accounts.filter m.concerns) m = splitMixing accounts m := by
  have hmixed : ∀ a : Account, a.number = m.mixed → m.concerns a = true := fun a ha => by
    simp [MixerAccounts.concerns, ha]
  have hunmixed : ∀ a : Account, a.number = m.unmixed → m.concerns a = true := fun a ha => by
    simp [MixerAccounts.concerns, ha]
  rw [splitMixing_eq, splitMixing_eq, lastTotal_concerned accounts hmixed,
    lastTotal_concerned accounts hunmixed]

/-! ## The two totals and the wallet's -/

/-- What is overwritten was counted in the wallet's total as well. -/
theorem splitMixing_le_total (accounts : List Account) (m : MixerAccounts) :
    (splitMixing accounts m).mixed.toNat + (splitMixing accounts m).unmixed.toNat ≤
      (WalletBalance.ofAccounts accounts).total := by
  induction accounts using List.reverseRecOn with
  | nil => exact Nat.le_refl 0
  | append_singleton accounts a ih =>
    rw [splitMixing_concat, total_concat]
    unfold MixingBalances.note
    split
    · dsimp only
      omega
    · split
      · dsimp only
        omega
      · omega

theorem lastTotal_of_not_mem (h : number ∉ accounts.map (·.number)) :
    lastTotal accounts number = .zero := by
  have hfilter : accounts.filter (·.number = number) = [] := by
    rw [List.filter_eq_nil_iff]
    intro a ha heq
    exact h (of_decide_eq_true heq ▸ List.mem_map_of_mem ha)
  unfold lastTotal
  rw [hfilter]
  rfl

theorem sum_remaining_concat (accounts : List Account) (a : Account) (m : MixerAccounts) :
    (((accounts ++ [a]).filter (!m.concerns ·)).map (·.balance.total.toNat)).sum =
      ((accounts.filter (!m.concerns ·)).map (·.balance.total.toNat)).sum +
        if m.concerns a then 0 else a.balance.total.toNat := by
  rw [List.filter_append, List.map_append, List.sum_append]
  cases h : m.concerns a <;> simp [h]

/-- As long as no number is repeated nothing is overwritten, so that the wallet's total is in
the two accounts and in those that are left. -/
theorem total_split (hnodup : (accounts.map (·.number)).Nodup) (hne : m.mixed ≠ m.unmixed) :
    (WalletBalance.ofAccounts accounts).total =
      (splitMixing accounts m).mixed.toNat + (splitMixing accounts m).unmixed.toNat +
        ((accounts.filter (!m.concerns ·)).map (·.balance.total.toNat)).sum := by
  have hnothing : Amount.zero.toNat = 0 := rfl
  induction accounts using List.reverseRecOn with
  | nil => rfl
  | append_singleton accounts a ih =>
    rw [List.map_append, List.map_singleton, ← List.concat_eq_append, List.nodup_concat] at hnodup
    obtain ⟨hnew, hrest⟩ := hnodup
    have hsplit := ih hrest
    rw [splitMixing_eq, if_neg hne.symm] at hsplit ⊢
    dsimp only at hsplit ⊢
    rw [total_concat, sum_remaining_concat, lastTotal_concat, lastTotal_concat, hsplit]
    -- no other account has this one's number, so nothing has been noted under it
    by_cases hmixed : a.number = m.mixed
    · have hunmixed : ¬a.number = m.unmixed := fun h => hne (hmixed.symm.trans h)
      have hconcerns : m.concerns a = true := by simp [MixerAccounts.concerns, hmixed]
      have hzero : lastTotal accounts m.mixed = .zero := lastTotal_of_not_mem (hmixed ▸ hnew)
      rw [if_pos hmixed, if_neg hunmixed, if_pos hconcerns, hzero]
      omega
    · by_cases hunmixed : a.number = m.unmixed
      · have hconcerns : m.concerns a = true := by simp [MixerAccounts.concerns, hunmixed]
        have hzero : lastTotal accounts m.unmixed = .zero := lastTotal_of_not_mem (hunmixed ▸ hnew)
        rw [if_neg hmixed, if_pos hunmixed, if_pos hconcerns, hzero]
        omega
      · have hconcerns : ¬m.concerns a = true := by
          simp [MixerAccounts.concerns, hmixed, hunmixed]
        rw [if_neg hmixed, if_neg hunmixed, if_neg hconcerns]
        omega

/-! ## The order of the accounts -/

theorem filter_number_of_nodup (h : (accounts.map (·.number)).Nodup) (number : UInt32) :
    (accounts.filter (·.number = number)).length ≤ 1 := by
  have hcount : (accounts.map (·.number)).count number ≤ 1 := List.nodup_iff_count_le_one.mp h number
  rwa [List.count, List.countP_map, List.countP_eq_length_filter] at hcount

theorem lastTotal_perm (h : (accounts.map (·.number)).Nodup) (hperm : accounts'.Perm accounts)
    (number : UInt32) : lastTotal accounts' number = lastTotal accounts number := by
  have hone := filter_number_of_nodup h number
  have hfilter : (accounts'.filter (·.number = number)).Perm
      (accounts.filter (·.number = number)) := hperm.filter _
  unfold lastTotal
  generalize accounts.filter (·.number = number) = found at hone hfilter
  match found with
  | [] => rw [hfilter.eq_nil]
  | [a] => rw [List.perm_singleton.mp hfilter]
  | _ :: _ :: _ => simp at hone

theorem splitMixing_perm (h : (accounts.map (·.number)).Nodup) (hperm : accounts'.Perm accounts)
    (m : MixerAccounts) : splitMixing accounts' m = splitMixing accounts m := by
  rw [splitMixing_eq, splitMixing_eq, lastTotal_perm h hperm, lastTotal_perm h hperm]

/-- What the two amounts of a mixer are: of any accounts, of accounts that differ from these in
other numbers only, and as a part of the total. -/
theorem splitMixing_accounts (accounts : List Account) (m : MixerAccounts) :
    splitMixing accounts m = ⟨lastTotal accounts m.mixed,
      if m.unmixed = m.mixed then .zero else lastTotal accounts m.unmixed⟩ ∧
    (∀ accounts' : List Account, accounts'.filter m.concerns = accounts.filter m.concerns →
      splitMixing accounts' m = splitMixing accounts m) ∧
    (splitMixing accounts m).mixed.toNat + (splitMixing accounts m).unmixed.toNat ≤
      (WalletBalance.ofAccounts accounts).total ∧
    ((accounts.map (·.number)).Nodup → m.mixed ≠ m.unmixed →
      (WalletBalance.ofAccounts accounts).total =
        (splitMixing accounts m).mixed.toNat + (splitMixing accounts m).unmixed.toNat +
          ((accounts.filter (!m.concerns ·)).map (·.balance.total.toNat)).sum ∧
      ∀ accounts' : List Account, accounts'.Perm accounts →
        splitMixing accounts' m = splitMixing accounts m) := by
  refine ⟨splitMixing_eq accounts m, fun accounts' h => ?_, splitMixing_le_total accounts m,
    fun hnodup hne => ⟨total_split hnodup hne, fun accounts' hperm => ?_⟩⟩
  · rw [← splitMixing_concerned accounts', h, splitMixing_concerned]
  · exact splitMixing_perm hnodup hperm m

/-- Three accounts of one wallet. -/
def threeAccounts : List Account := [
  { number := 1, name := "mixed", externalKeys := 20, internalKeys := 20, importedKeys := 0,
    wallet := 7, balance := ⟨⟨100⟩, ⟨100⟩, ⟨0⟩⟩ },
  { number := 5, name := "savings", externalKeys := 20, internalKeys := 20, importedKeys := 0,
    wallet := 7, balance := ⟨⟨10⟩, ⟨0⟩, ⟨5⟩⟩ },
  { number := 2, name := "unmixed", externalKeys := 20, internalKeys := 20, importedKeys := 0,
    wallet := 7, balance := ⟨⟨50⟩, ⟨40⟩, ⟨0⟩⟩ }]

/-- The account between the two does not count, and the order makes no difference. -/
theorem splitMixing_accounts_three :
    (threeAccounts.map (·.number)).Nodup ∧ (1 : UInt32) ≠ 2 ∧
    [threeAccounts[0], threeAccounts[2]].filter (MixerAccounts.concerns ⟨1, 2⟩) =
      threeAccounts.filter (MixerAccounts.concerns ⟨1, 2⟩) ∧
    splitMixing threeAccounts ⟨1, 2⟩ = ⟨⟨100⟩, ⟨50⟩⟩ ∧
    splitMixing [threeAccounts[0], threeAccounts[2]] ⟨1, 2⟩ = splitMixing threeAccounts ⟨1, 2⟩ ∧
    (WalletBalance.ofAccounts threeAccounts).total = 100 + 50 + 10 ∧
    splitMixing threeAccounts.reverse ⟨1, 2⟩ = splitMixing threeAccounts ⟨1, 2⟩ := by
  have hnodup : (threeAccounts.map (·.number)).Nodup := by decide
  obtain ⟨heq, hothers, -, hdistinct⟩ := splitMixing_accounts threeAccounts ⟨1, 2⟩
  obtain ⟨htotal, horder⟩ := hdistinct hnodup (by decide)
  refine ⟨hnodup, by decide, rfl, heq, hothers _ rfl, htotal, ?_⟩
  exact horder _ (List.reverse_perm threeAccounts)

end Purse
