import Purse.Proofs.Registry.Chores
import Purse.Proofs.Registry.Holding
import Purse.Selection.Fetch

/-!
# A fetch shows the accounts as they are

The outputs of an account are listed by its name, and a group of rows is built by its number.
As long as the accounts of an engine in memory differ in both, a fetch that succeeds shows
exactly these accounts, each with its own outputs (`Shows`), whatever the last picture of them
was and whatever the selection held. That is so after any refreshes, new accounts and new names
(`Registry.Chore`), and in any company that leaves the accounts alone while the fetch is under
way (`Registry.Holds`).

Main statement: `fetch_shows_accounts`.
-/

namespace Purse

/-- The rows of the group are the outputs of the account, none of them picked. -/
structure Group.Lists (a : StoredAccount) (g : Group) : Prop where
  account : g.account = a.number
  name : g.name = a.name
  rows : List.Forall₂ (fun r row => row.output.TakenOver a.number r ∧ row.selected = false)
    a.unspent g.rows

/-- No two accounts share a number or a name. -/
structure StoredAccount.Apart (accounts : List StoredAccount) : Prop where
  numbers : (accounts.map (·.number)).Nodup
  names : (accounts.map (·.name)).Nodup

instance (accounts : List StoredAccount) : Decidable (StoredAccount.Apart accounts) :=
  decidable_of_iff ((accounts.map (·.number)).Nodup ∧ (accounts.map (·.name)).Nodup)
    ⟨fun h => ⟨h.1, h.2⟩, fun h => ⟨h.numbers, h.names⟩⟩

namespace Selection

variable {ε : Type} {inner : ε → InMemoryEngine} {n : Nat} {accounts : List StoredAccount}
  {s : Selection} {ticket : Nat} {w : WalletId}

/-- The selection that has become of `s` shows the accounts, and nothing is picked or sorted. -/
structure Shows (accounts : List StoredAccount) (s s' : Selection) : Prop where
  wallet : s'.wallet = s.wallet
  groups : List.Forall₂ Group.Lists accounts s'.groups
  /-- Every output of the wallet has one row. -/
  once : s'.rows.map (fun row => (row.output.account, row.output.toOutPoint)) =
    accounts.flatMap fun a => a.unspent.map fun r => (a.number, r.toOutPoint)
  /-- No two groups are of one account, and their rows are of no other. -/
  own : (s'.groups.map (·.account)).Nodup ∧
    ∀ g ∈ s'.groups, ∀ row ∈ g.rows, row.output.account = g.account
  count : s'.summary.count = 0
  amount : s'.summary.amount = 0
  indicator : s'.tracker.indicator = none
  stage : s'.stage = .loaded

/-! ## Groups -/

theorem map_eq_of_forall₂ {α β γ : Type} {R : α → β → Prop} {f : α → γ} {g : β → γ} {l : List α}
    {l' : List β} (h : List.Forall₂ R l l') (heq : ∀ a b, R a b → g b = f a) :
    l'.map g = l.map f := by
  induction h with
  | nil => rfl
  | cons hab _ ih => rw [List.map_cons, List.map_cons, heq _ _ hab, ih]

variable {groups : List Group}

theorem numbers_of_lists (h : List.Forall₂ Group.Lists accounts groups) :
    groups.map (·.account) = accounts.map (·.number) :=
  map_eq_of_forall₂ h fun _ _ hg => hg.account

theorem points_of_lists (h : List.Forall₂ Group.Lists accounts groups) :
    (groups.flatMap (·.rows)).map (fun row => (row.output.account, row.output.toOutPoint)) =
      accounts.flatMap fun a => a.unspent.map fun r => (a.number, r.toOutPoint) := by
  induction h with
  | nil => rfl
  | cons hg _ ih =>
    rw [List.flatMap_cons, List.flatMap_cons, List.map_append, ih]
    congr 1
    exact map_eq_of_forall₂ hg.rows fun _ _ hr => Prod.ext hr.1.account hr.1.point

theorem own_of_lists (h : List.Forall₂ Group.Lists accounts groups) :
    ∀ g ∈ groups, ∀ row ∈ g.rows, row.output.account = g.account := by
  have hown : ∀ {a g}, Group.Lists a g → ∀ row ∈ g.rows, row.output.account = g.account := by
    intro a g hg
    have hrows := hg.rows.flip.imp fun row r hr =>
      And.intro (hr.1.account.trans hg.account.symm) hr.1.point
    exact ((List.forall₂_and_left _ _).mp hrows).1
  exact ((List.forall₂_and_left _ _).mp (h.flip.imp fun g a hg => And.intro (hown hg) hg.name)).1

/-- What has been loaded is shown. -/
theorem shows_load (hapart : StoredAccount.Apart accounts)
    (h : List.Forall₂ Group.Lists accounts groups) (s : Selection) (sizing : Sizing) :
    Shows accounts s (s.load sizing groups) where
  wallet := rfl
  groups := h
  once := points_of_lists h
  own := by
    refine ⟨?_, own_of_lists h⟩
    show (groups.map (·.account)).Nodup
    rw [numbers_of_lists h]
    exact hapart.numbers
  count := rfl
  amount := rfl
  indicator := rfl
  stage := rfl

/-! ## Fetching -/

section Fetch

open Registry (Holds)

variable [Engine ε]

theorem fetchGroup_secures (hinner : HeldInMemory inner) (hapart : StoredAccount.Apart accounts)
    {a : StoredAccount} (ha : a ∈ accounts) {account : Account}
    (h : account.toAccountInfo.Bears a) :
    (fetchGroup w account : Registry.Op ε Group).Secures (Holds inner w n accounts)
      (Group.Lists a) := by
  have houtputs :=
    Registry.unspentOutputs_secures (w := w) (n := n) hinner hapart.numbers hapart.names ha
  unfold fetchGroup
  rw [h.number]
  refine .bind houtputs fun outputs houtputs => .pure ⟨rfl, h.name, ?_⟩
  rw [List.forall₂_map_right_iff]
  exact houtputs.imp fun _ _ ho => ⟨ho, rfl⟩

theorem fetchGroups_secures (hinner : HeldInMemory inner) (hapart : StoredAccount.Apart accounts) :
    (fetchGroups ticket w : Registry.Op ε (Sizing × List Group)).Secures (Holds inner w n accounts)
      fun found => List.Forall₂ Group.Lists accounts found.2 := by
  unfold fetchGroups
  refine .bind (Registry.access_secures w) fun access _ =>
    .bind (Registry.refresh_secures hinner ticket) fun p hp => ?_
  have hgroups : List.Forall₂ (fun a account => (fetchGroup w account : Registry.Op ε Group).Secures
      (Holds inner w n accounts) (Group.Lists a)) accounts p.accounts := by
    rw [List.forall₂_iff_zip] at hp ⊢
    exact ⟨hp.1, fun hz => fetchGroup_secures hinner hapart (List.of_mem_zip hz).1 (hp.2 hz)⟩
  refine .bind (.mapM hgroups) fun groups hlists => ?_
  exact .bind (Q := fun _ => True) (.bind .read fun _ _ => .pure trivial) fun _ _ => .pure hlists

theorem fetch_secures (hinner : HeldInMemory inner) (hapart : StoredAccount.Apart accounts)
    (ticket : Nat) (s : Selection) :
    (fetch ticket s : Flow Wait (Registry ε) (Outcome Unit × Selection)).Secures
      (Holds inner s.wallet n accounts) fun found => found.1 = .ok () →
        Shows accounts s found.2 := by
  unfold fetch
  refine Flow.Secures.bind (fetchGroups_secures hinner hapart) fun o ho => ?_
  cases o with
  | error f => exact .pure fun heq => nomatch heq
  | ok found => exact .pure fun _ => shows_load hapart (ho found rfl) s found.1

/-- A fetch that succeeds shows the accounts that the engine has then, as long as no two of them
share a number or a name: after whatever chores have been done since the wallet was loaded, and
whatever others do meanwhile, if they leave these accounts alone. -/
theorem fetch_shows_accounts (hinner : HeldInMemory inner) :
    (∀ {r₀ r₁ : Registry ε} {w : WalletId} {engine : ε} {n : Nat}, r₀.Sound →
      (Registry.load w engine).exec r₀ = (.ok n, r₁) →
      ∀ chores, ∃ e, (r₁.afterChores chores).engines[n]? = some e ∧
        (StoredAccount.Apart (inner e).accounts → ∀ ticket (s s' : Selection) r, s.wallet = w →
          (fetch ticket s).run (r₁.afterChores chores) = ((.ok (), s'), r) →
          Shows (inner e).accounts s s')) ∧
    ∀ n accounts, StoredAccount.Apart accounts → ∀ ticket (s s' : Selection) r
      (ts : List (Turn Wait (Registry ε))), (fetch ticket s).Course ts (.done (.ok (), s') r) →
      (∀ τ ∈ ts, Holds inner s.wallet n accounts τ.found) → Shows accounts s s' := by
  refine ⟨?_, ?_⟩
  · intro r₀ r₁ w engine n hsound hload chores
    obtain ⟨⟨e, he⟩, hreached⟩ := Registry.afterChores_reached hsound hload chores
    refine ⟨e, he, fun hapart ticket s s' r hw hrun => ?_⟩
    subst hw
    have hholds : Holds inner s.wallet n (inner e).accounts (r₁.afterChores chores) := by
      refine ⟨hreached, fun e' he' => ?_⟩
      cases he.symm.trans he'
      rfl
    obtain ⟨-, hshows⟩ := (fetch_secures hinner hapart ticket s).run hholds .answer
    rw [hrun] at hshows
    exact hshows rfl
  · intro n accounts hapart ticket s s' r ts hc hholds
    obtain ⟨-, hshows⟩ := fetch_secures hinner hapart ticket s ts _ hc hholds
    exact hshows _ _ rfl rfl

end Fetch

namespace Sample

/-- Two accounts, of which only the second has a name that stays. -/
def twoAccounts : InMemoryEngine where
  asset := .btc
  accounts := [
    { number := 0
      name := "default"
      balance := .units 700 700 0
      unspent := [
        { txid := "aa"
          vout := 0
          address := "bc1"
          script := "0014"
          received := 1700000006
          details := .btc ⟨0x3fe0000000000000⟩ none 6 true }] },
    { number := 5
      name := "savings"
      balance := .units 0 0 0
      unspent := [
        { txid := "bb"
          vout := 1
          address := "bc1"
          script := "76a9"
          received := -1
          details := .btc ⟨0x3ff0000000000000⟩ none 0 false }] }]
  blockHash := default
  blockHeight := 5

def chores : List (WalletId × Registry.Chore) :=
  [(7, .refresh 0), (7, .rename 0 "spending"), (7, .errand (.create "default" "passphrase"))]

/-- The first wallet. -/
def opened : Registry InMemoryEngine :=
  ((Registry.load 7 twoAccounts).exec { config := {} }).2

/-- What is left of an earlier sitting. -/
def leftover : Selection where
  wallet := 7
  nextStamp := 4
  amount := 5
  tracker := ⟨some .address, 3⟩
  stage := .submitted

/-- What a fetch makes of it. -/
def refetched : (Outcome Unit × Selection) × Registry InMemoryEngine :=
  (fetch 1 leftover).run (opened.afterChores chores)

end Sample

open Sample

/-- The last picture shows neither the new name nor the new account, which has the old name. -/
theorem fetch_shows_accounts_renamed :
    ((opened.afterChores chores).snapshot? 7).map (·.accounts.map (·.name)) =
      some ["default", "savings"] ∧
    refetched.1.1 = .ok () ∧
    refetched.1.2.groups.map (fun g => (g.account, g.name)) =
      [(0, "spending"), (5, "savings"), (6, "default")] ∧
    ∃ e, (opened.afterChores chores).engines[0]? = some e ∧ StoredAccount.Apart e.accounts ∧
      Shows e.accounts leftover refetched.1.2 ∧
      ∃ ts r, (fetch 1 leftover).Course ts (.done (.ok (), refetched.1.2) r) ∧
        (∀ τ ∈ ts, Registry.Holds id 7 0 e.accounts τ.found) ∧
        Shows e.accounts leftover refetched.1.2 := by
  have hsound : ({ config := {} } : Registry InMemoryEngine).Sound :=
    Registry.sound_new (show Registry.new {} = .ok _ from rfl)
  have hload : (Registry.load 7 twoAccounts).exec { config := {} } = (.ok 0, opened) := rfl
  obtain ⟨hafter, hcompany⟩ := fetch_shows_accounts heldInMemory_self
  obtain ⟨e, he, hshows⟩ := hafter hsound hload chores
  have hapart : StoredAccount.Apart e.accounts :=
    (show ∀ e ∈ (opened.afterChores chores).engines[0]?, StoredAccount.Apart e.accounts by
      decide +kernel) e he
  have hok : refetched.1.1 = .ok () := by decide +kernel
  have hrun : refetched = ((.ok (), refetched.1.2), refetched.2) := by rw [← hok]
  refine ⟨by decide +kernel, hok, by decide +kernel, e, he, hapart, ?_, ?_⟩
  · exact hshows hapart 1 leftover _ _ rfl hrun
  · have hholds : Registry.Holds id 7 0 e.accounts (opened.afterChores chores) := by
      refine ⟨(Registry.afterChores_reached hsound hload chores).2, fun e' he' => ?_⟩
      cases he.symm.trans he'
      rfl
    obtain ⟨ts, hc, hfound⟩ :=
      (fetch_secures heldInMemory_self hapart 1 leftover).exists_course hholds .answer
    rw [show (fetch 1 leftover).run _ = _ from hrun] at hc
    exact ⟨ts, _, hc, hfound, hcompany 0 _ hapart 1 leftover _ _ ts hc hfound⟩

end Selection

end Purse
