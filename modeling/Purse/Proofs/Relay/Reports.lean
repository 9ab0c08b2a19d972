import Purse.Proofs.Engine.Balances
import Purse.Proofs.Relay.Household

/-!
# What the pictures are made of

A refresh puts up the balances that engines have stated in its own turns, and no others
(`Refreshed.stated`). Every picture in a house was taken by one refresh, so this is true of all
balances that can be seen there at any time (`pictured`).

Whether a balance is asked for directly or seen in a picture, what it is worth is settled by
`Judged`: it is exactly what was reported, and nothing negative has a part in it but one kind of
immature rewards, and that only if the other kind makes up for it (`balances_as_reported`).
-/

namespace Purse

variable {ε α : Type}

/-! ## Reports in the turns of a refresh -/

/-- A balance that is taken over was reported. -/
theorem reported_of_balance {reply : Except EngineError ReportedBalance} {b : Balance}
    (h : balanceOfReply reply = .ok b) : ∃ r, reply = .ok r ∧ r.toBalance = .ok b := by
  cases reply with
  | error e => cases h
  | ok r =>
    have hok : r.toBalance.mapError Failure.backend = .ok b := h
    exact ⟨r, rfl, ok_of_mapError hok⟩

/-- Among these exchanges the account's balance was reported so. -/
def AmongReports (confirmations : UInt32) (xs : List Exchange) (a : Account) : Prop :=
  ∃ r : ReportedBalance, ⟨.balance a.number confirmations, .ok r⟩ ∈ xs ∧ r.toBalance = .ok a.balance

theorem Pricing.reported {w : WalletId} {confirmations : UInt32} {infos : List AccountInfo}
    {xs : List Exchange} {o : Outcome (List Account)} (h : Pricing w confirmations infos xs o)
    {accounts : List Account} (ho : o = .ok accounts) :
    ∀ a ∈ accounts, AmongReports confirmations xs a := by
  induction h generalizing accounts with
  | done =>
    cases ho
    exact fun _ hmem => nomatch hmem
  | failed hf => cases ho
  | @priced info infos reply b a xs o hb ha h ih =>
    cases o with
    | error f => cases ho
    | ok rest =>
      cases ho
      intro a' hmem
      rcases List.mem_cons.mp hmem with rfl | hmem
      · obtain ⟨r, rfl, hr⟩ := reported_of_balance hb
        rw [← ha.number, ← ha.balance] at *
        exact ⟨r, List.mem_cons_self, hr⟩
      · obtain ⟨r, hr, hbalance⟩ := ih rfl a' hmem
        exact ⟨r, List.mem_cons_of_mem _ hr, hbalance⟩

theorem Refreshing.reported {w : WalletId} {scope : Option KeyScope} {confirmations : UInt32}
    {xs : List Exchange} {p : Accounts} (h : Refreshing w scope confirmations xs (.ok p)) :
    ∀ a ∈ p.accounts, AmongReports confirmations xs a := by
  generalize ho : Except.ok p = o at h
  cases h with
  | failed => cases ho
  | @listed listing xs o h =>
    cases o with
    | error f => cases ho
    | ok accounts =>
      cases ho
      intro a hmem
      obtain ⟨r, hr, hbalance⟩ := h.reported rfl a hmem
      exact ⟨r, List.mem_cons_of_mem _ hr, hbalance⟩

namespace Registry

variable [Engine ε]

/-- To ask for a balance is one exchange, whatever others do meanwhile. -/
theorem accountBalance_course {a : Access} {account confirmations : UInt32}
    {ts : List (Turn Wait (Registry ε))} {o : Outcome Balance} {s : Registry ε}
    (h : (accountBalance a account confirmations).run.Course ts (.done o s)) :
    ∃ reply, Exchanges a.engine ts [⟨.balance account confirmations, reply⟩] ∧
      o = balanceOfReply reply :=
  acceptCall_course (c := .balance account confirmations) (f := ReportedBalance.toBalance) h

/-- In a stretch of these turns an engine was asked for the balance of the account, and this
was its report. -/
def Stated (confirmations : UInt32) (ts : List (Turn Wait (Registry ε))) (account : UInt32)
    (r : ReportedBalance) : Prop :=
  ∃ n asked xs, asked <:+: ts ∧ Exchanges n asked xs ∧
    ⟨.balance account confirmations, .ok r⟩ ∈ xs

/-- The balances that a refresh puts up were reported in its own turns. -/
theorem Refreshed.stated {ticket : Nat} {w : WalletId} {confirmations : UInt32}
    {ts : List (Turn Wait (Registry ε))} {p : Accounts}
    (h : Refreshed ticket w confirmations ts (.ok p)) :
    ∀ a ∈ p.accounts, ∃ r, Stated confirmations ts a.number r ∧ r.toBalance = .ok a.balance := by
  generalize ho : Except.ok p = o at h
  cases h with
  | missing hfind => cases ho
  | @settled wait s₀ s₁ s₂ s₃ s₄ key r ts o hfind hsettled =>
    subst ho
    generalize hturns : (⟨.lock key ticket, s₃, s₄⟩ :: ts : List (Turn Wait (Registry ε))) = turns
      at hsettled
    cases hsettled with
    | @succeeded s asked xs p hasked h =>
      intro a hmem
      obtain ⟨report, hreport, hbalance⟩ := h.reported a hmem
      exact ⟨report, ⟨_, asked, xs, ⟨[_, _, _], [_], rfl⟩, hasked, hreport⟩, hbalance⟩

end Registry

/-! ## All balances that can be seen -/

namespace House

open Registry (Stated)

variable [Engine ε]

/-- In these turns of somebody in the house a refresh was told the balances of these accounts,
which are what was reported. -/
def ToldBalances (confirmations : UInt32) (ts : List (Turn Wait (Registry ε)))
    (accounts : List Account) : Prop :=
  ∃ part, Part ts part ∧ ∀ a ∈ accounts, ∃ r, Stated confirmations part a.number r ∧
    r.States a.balance ∧ r.Fits ∧ (r.Nonnegative ∨ r.Hides)

/-- Every picture at any time is made of reports. -/
theorem pictured (config : Config) (acts : List (Act ε α)) {key : Nat} {p : Accounts}
    (hp : ((new config : House ε α).after acts).relay.registry.picture key = some p) :
    ∃ x, ToldBalances config.effectiveConfirmations
      (turnsOf ((new config).moments acts) ((new config).after acts) x) p.accounts := by
  obtain ⟨x, ticket, w, part, r, hpart, hrefreshed, -, -⟩ :=
    (household_after config acts).taken key p hp
  refine ⟨x, part, hpart, fun a hmem => ?_⟩
  obtain ⟨report, hstated, hbalance⟩ := hrefreshed.stated a hmem
  obtain ⟨hfits, hstates⟩ := ReportedBalance.states_of_toBalance hbalance
  exact ⟨report, hstated, hstates, hfits, (hstates.accepted hfits).imp_left And.left⟩

/-- A balance that is asked for comes to what is reported, and so does every balance that can
be seen in a picture. -/
theorem balances_as_reported (a : Access) (account confirmations : UInt32) :
    (∀ (s : Registry ε) (e : ε), s.engines[a.engine]? = some e →
      Judged (Engine.ask (.balance account confirmations) e).1
        ((Registry.accountBalance a account confirmations).exec s).1) ∧
    (∀ (ts : List (Turn Wait (Registry ε))) (o : Outcome Balance) (s : Registry ε),
      (Registry.accountBalance a account confirmations).run.Course ts (.done o s) →
        ∃ reply, Registry.Exchanges a.engine ts [⟨.balance account confirmations, reply⟩] ∧
          Judged reply o) ∧
    ∀ (config : Config) (acts : List (Act ε α)) (key : Nat) (p : Accounts),
      ((new config : House ε α).after acts).relay.registry.picture key = some p →
        ∃ x, ToldBalances config.effectiveConfirmations
          (turnsOf ((new config).moments acts) ((new config).after acts) x) p.accounts := by
  refine ⟨fun s e he => ?_, fun ts o s hc => ?_, fun config acts key p hp => ?_⟩
  · rw [Registry.accountBalance_exec a he]
    exact judged_balanceOfReply _
  · obtain ⟨reply, hasked, rfl⟩ := Registry.accountBalance_course hc
    exact ⟨reply, hasked, judged_balanceOfReply reply⟩
  · exact pictured config acts hp

namespace Sample

/-- A negative reward, and another one that makes up for it. -/
def compensated : ReportedBalance :=
  .signed 500 500 (-5) 10 0 0 0

def compensating : InMemoryEngine where
  asset := .dcr
  blockHash := default
  blockHeight := 5
  accounts := [{ number := 0, name := "default", balance := compensated }]

/-- A wallet is loaded and refreshed. -/
def shown : List (Act InMemoryEngine (Outcome Accounts)) :=
  .begin (fun ticket => (Registry.load 7 compensating >>= fun _ => Registry.refresh ticket 7).run)
    (fun ticket => Registry.Op.Calls.bind ((Request.load 7 compensating).calls ticket) fun _ =>
      (Request.refresh 7).calls ticket) ::
    List.replicate 16 (.go 0)

def atHome : Registry InMemoryEngine :=
  ((new {}).after shown).relay.registry

/-- What the rewards come to together. -/
def worth : Balance :=
  ⟨⟨500⟩, ⟨500⟩, ⟨5⟩⟩

def picture : Accounts :=
  ⟨[{ number := 0, name := "default", externalKeys := 20, internalKeys := 20, importedKeys := 0,
      wallet := 7, balance := worth }], default, 5⟩

end Sample

open Sample

theorem balances_as_reported_compensated :
    Judged (.ok compensated) ((Registry.accountBalance ⟨0, .dcr, .mainnet⟩ 0 2).exec atHome).1 ∧
    (∃ ts o s, (Registry.accountBalance ⟨0, .dcr, .mainnet⟩ 0 2).run.Course ts (.done o s) ∧ ∃ reply,
      Registry.Exchanges (ε := InMemoryEngine) 0 ts [⟨.balance 0 2, reply⟩] ∧ Judged reply o) ∧
    atHome.picture 0 = some picture ∧ ∃ x, ToldBalances ({} : Config).effectiveConfirmations
      (turnsOf ((new {}).moments shown) ((new {}).after shown) x) picture.accounts := by
  obtain ⟨hexec, hcourse, hpicture⟩ :=
    balances_as_reported (ε := InMemoryEngine) (α := Outcome Accounts) ⟨0, .dcr, .mainnet⟩ 0 2
  have hshown : atHome.picture 0 = some picture := by decide +kernel
  refine ⟨?_, ?_, hshown, hpicture {} shown 0 picture hshown⟩
  · obtain ⟨e, he⟩ : ∃ e, atHome.engines[0]? = some e :=
      Option.isSome_iff_exists.mp (by decide +kernel)
    have hreply : ∀ e ∈ atHome.engines[0]?, (Engine.ask (.balance 0 2) e).1 = .ok compensated := by
      decide +kernel
    rw [← hreply e he]
    exact hexec atHome _ he
  · obtain ⟨ts, hc⟩ := Flow.Course.of_ends
      (.first .answer atHome)
      (Turns.ends_run ((Registry.accountBalance ⟨0, .dcr, .mainnet⟩ 0 2).run atHome))
    exact ⟨_, _, _, hc, hcourse _ _ _ hc⟩

/-- The balance is taken over and seen although a reward is negative. -/
theorem negative_reward_taken_over :
    compensated.Hides ∧ ¬compensated.Nonnegative ∧
    ((Registry.accountBalance ⟨0, .dcr, .mainnet⟩ 0 2).exec atHome).1 = .ok worth ∧
    atHome.picture 0 = some picture := by
  refine ⟨⟨by decide, by decide, by decide, by decide⟩, fun h => ?_, by decide +kernel,
    by decide +kernel⟩
  exact absurd h.2.2.1 (by decide)

end House

end Purse
