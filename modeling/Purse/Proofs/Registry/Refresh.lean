import Mathlib.Data.List.Forall2
import Purse.Engine.InMemory
import Purse.Engine.Monitored
import Purse.Proofs.Registry.Course
import Purse.Proofs.Registry.Sound

/-!
# Refreshing a wallet

`Refreshing` says what a refresh may ask and what comes of it: the listing first, then
the balance of one account after the other (`Pricing`), until all are known or one
answer is a failure. It speaks of exchanges and outcomes only, not of registries.

`refresh_atomic` says that a refresh is just that, of any engine in any sound registry:
the engine goes through these calls and no others, a success is returned and stored, a
failure leaves the picture there was, and no other wallet's picture changes either way.
-/

namespace Purse

/-- What an answer about a balance amounts to. -/
def balanceOfReply (reply : Except EngineError ReportedBalance) : Outcome Balance := do
  (← reply.mapError Failure.ofEngine).toBalance.mapError Failure.backend

/-- The account of a wallet that a listed account is taken over as. -/
structure Account.TakenOver (w : WalletId) (info : AccountInfo) (b : Balance) (a : Account) :
    Prop where
  number : a.number = info.number
  name : a.name = info.name
  external : a.externalKeys.toNat = min (info.externalKeys.toNat + 20) 4294967295
  internal : a.internalKeys.toNat = min (info.internalKeys.toNat + 20) 4294967295
  imported : a.importedKeys = info.importedKeys
  wallet : a.wallet = w
  balance : a.balance = b

/-- Asking for the balances of listed accounts in their order, up to the first failure. -/
inductive Pricing (w : WalletId) (confirmations : UInt32) :
    List AccountInfo → List Exchange → Outcome (List Account) → Prop
  | done : Pricing w confirmations [] [] (.ok [])
  | failed {info : AccountInfo} {infos : List AccountInfo}
      {reply : Except EngineError ReportedBalance} {f : Failure}
      (hf : balanceOfReply reply = .error f) :
      Pricing w confirmations (info :: infos) [⟨.balance info.number confirmations, reply⟩] (.error f)
  | priced {info : AccountInfo} {infos : List AccountInfo}
      {reply : Except EngineError ReportedBalance} {b : Balance} {a : Account} {xs : List Exchange}
      {o : Outcome (List Account)} (hb : balanceOfReply reply = .ok b) (ha : a.TakenOver w info b)
      (h : Pricing w confirmations infos xs o) :
      Pricing w confirmations (info :: infos) (⟨.balance info.number confirmations, reply⟩ :: xs)
        (o.map (a :: ·))

/-- Asking for the accounts of the scope and then for their balances, up to the first failure. -/
inductive Refreshing (w : WalletId) (scope : Option KeyScope) (confirmations : UInt32) :
    List Exchange → Outcome Accounts → Prop
  | failed {e : EngineError} :
      Refreshing w scope confirmations [⟨.accounts scope, .error e⟩] (.error (Failure.ofEngine e))
  | listed {listing : AccountListing} {xs : List Exchange} {o : Outcome (List Account)}
      (h : Pricing w confirmations listing.accounts xs o) :
      Refreshing w scope confirmations (⟨.accounts scope, .ok listing⟩ :: xs)
        (o.map fun accounts => ⟨accounts, listing.blockHash, listing.blockHeight⟩)

variable {w : WalletId} {scope : Option KeyScope} {confirmations : UInt32} {xs : List Exchange}

/-- On success the balance of every account was asked for. -/
theorem Pricing.calls_ok {infos : List AccountInfo} {o : Outcome (List Account)}
    (h : Pricing w confirmations infos xs o) {accounts : List Account} (ho : o = .ok accounts) :
    xs.map (·.call) = accounts.map (.balance ·.number confirmations) := by
  induction h generalizing accounts with
  | done =>
    cases ho
    rfl
  | failed hf => cases ho
  | @priced info infos reply b a xs o hb ha h ih =>
    cases o with
    | error f => cases ho
    | ok rest =>
      cases ho
      rw [List.map_cons, List.map_cons, ih rfl, ha.number]

/-- A success has asked for the balance of every account it shows. -/
theorem Refreshing.calls_ok {o : Outcome Accounts} (h : Refreshing w scope confirmations xs o)
    {snapshot : Accounts} (ho : o = .ok snapshot) :
    xs.map (·.call) =
      .accounts scope :: snapshot.accounts.map (.balance ·.number confirmations) := by
  cases h with
  | failed => cases ho
  | @listed listing xs o h =>
    cases o with
    | error f => cases ho
    | ok accounts =>
      cases ho
      rw [List.map_cons, h.calls_ok rfl]

/-! ## What a monitor sees -/

namespace Monitored

variable {ε : Type} [Engine ε] {m m' : Monitored ε}

/-- Every call is written down, whatever becomes of it. -/
theorem log_ask (c : Call) (m : Monitored ε) : (Engine.ask c m).2.log = c :: m.log := by
  have hreceive : (Monitored.receive c m).2.log = c :: m.log := by
    unfold Monitored.receive
    dsimp only
    split <;> rfl
  have hmonitor : Engine.receive c m = Monitored.receive c m := rfl
  unfold Engine.ask
  rw [hmonitor, ← hreceive]
  rcases Monitored.receive c m with ⟨refusal, m₁⟩
  cases refusal <;> rfl

end Monitored

namespace Registry

variable {ε : Type} {s : Registry ε} {e : ε} {w : WalletId} {key : Nat}

/-! ## Pictures -/

theorem snapshot?_eq (s : Registry ε) (w : WalletId) :
    s.snapshot? w = (s.key? w).bind fun key => (s.registrations[key]?).bind (·.snapshot) := by
  unfold snapshot? registration?
  cases s.key? w <;> rfl

theorem snapshot?_modify_of {f : Registration → Registration}
    (hf : ∀ r, (f r).snapshot = r.snapshot) (key : Nat) :
    (s.modifyRegistration key f).snapshot? w = s.snapshot? w := by
  rw [snapshot?_eq, snapshot?_eq]
  refine congrArg (s.key? w).bind (funext fun k => ?_)
  show ((s.registrations.modify key f)[k]?).bind _ = _
  rw [List.getElem?_modify]
  by_cases hk : key = k
  · cases s.registrations[k]? <;> simp [hk, hf]
  · cases s.registrations[k]? <;> simp [hk]

theorem snapshot?_leave (s : Registry ε) (ticket : Nat) (w : WalletId) :
    (s.leave ticket).snapshot? w = s.snapshot? w := by
  rw [snapshot?_eq, snapshot?_eq]
  refine congrArg (s.key? w).bind (funext fun k => ?_)
  show ((s.registrations.map _)[k]?).bind _ = _
  rw [List.getElem?_map]
  cases s.registrations[k]? <;> rfl

/-- The picture put up is the wallet's own; no other wallet has the same registration. -/
theorem snapshot?_modify_put (hs : s.Sound) (hkey : s.key? w = some key) (snapshot : Accounts)
    (w' : WalletId) :
    (s.modifyRegistration key fun r => { r with snapshot := some snapshot }).snapshot? w' =
      if w' = w then some snapshot else s.snapshot? w' := by
  rw [snapshot?_eq, snapshot?_eq]
  show ((s.key? w').bind fun k => ((s.registrations.modify key _)[k]?).bind _) = _
  by_cases hw : w' = w
  · have hlt := hs.registered w key hkey
    rw [if_pos hw, hw, hkey, Option.bind_some, List.getElem?_modify, List.getElem?_eq_getElem hlt]
    simp
  · rw [if_neg hw]
    cases hk : s.key? w' with
    | none => rfl
    | some k =>
      -- the other wallet would be this one if it had the same registration
      have hne : key ≠ k := fun h => hw (hs.apart w' w key (h ▸ hk) hkey)
      rw [Option.bind_some, Option.bind_some, List.getElem?_modify]
      cases s.registrations[k]? <;> simp [hne]

/-! ## Reading the picture -/

/-- Reading answers the picture there is and changes nothing. -/
theorem accounts_exec_some {p : Accounts} (h : s.snapshot? w = some p) :
    (accounts w).exec s = (.ok p, s) := by
  obtain ⟨r, hr, hp⟩ := Option.bind_eq_some_iff.mp h
  obtain ⟨key, hkey, hreg⟩ := Option.bind_eq_some_iff.mp hr
  have hshown : s.registrations[key]?.bind (·.snapshot) = some p := by
    rw [hreg, Option.bind_some, hp]
  unfold accounts
  rw [exec_bind_ok (entry_exec_some hkey hr), exec_bind_ok (exec_pauseFor _ s),
    exec_bind_ok (exec_get s), hshown]
  rfl

/-- Without a picture something is not found: the wallet, or its accounts. -/
theorem accounts_exec_none (h : s.snapshot? w = none) :
    ∃ missing, (accounts w).exec s = (.error (.notFound missing), s) := by
  cases hr : s.registration? w with
  | none => exact ⟨.wallet w, exec_bind_error (entry_exec_none hr) _⟩
  | some r =>
    obtain ⟨key, hkey, hreg⟩ := Option.bind_eq_some_iff.mp hr
    have hshown : s.registrations[key]?.bind (·.snapshot) = none := by
      rw [hreg, Option.bind_some]
      unfold snapshot? at h
      rw [hr] at h
      exact h
    refine ⟨.accounts w, ?_⟩
    unfold accounts
    rw [exec_bind_ok (entry_exec_some hkey hr), exec_bind_ok (exec_pauseFor _ s),
      exec_bind_ok (exec_get s), hshown]
    rfl

variable [Engine ε]

/-! ## The loop over the accounts -/

theorem toNat_withGap (keys : UInt32) : (withGap keys).toNat = min (keys.toNat + 20) 4294967295 := by
  have hlt : min (keys.toNat + 20) 4294967295 < UInt32.size := by
    unfold UInt32.size
    omega
  exact UInt32.toNat_ofNat_of_lt hlt

theorem takenOver_lookAhead (w : WalletId) (info : AccountInfo) (b : Balance) :
    Account.TakenOver w info b { info.lookAhead with wallet := w, balance := b } :=
  ⟨rfl, rfl, toNat_withGap _, toNat_withGap _, rfl, rfl, rfl⟩

theorem accountBalance_exec (a : Access) (h : s.engines[a.engine]? = some e)
    (account confirmations : UInt32) :
    (accountBalance a account confirmations).exec s =
      (balanceOfReply (Engine.ask (.balance account confirmations) e).1,
        s.withEngine a.engine (Engine.ask (.balance account confirmations) e).2) :=
  acceptCall_exec a h (.balance account confirmations) ReportedBalance.toBalance

/-- The loop over the accounts asks for one balance after the other. -/
theorem prices_exec (w : WalletId) (a : Access) (infos : List AccountInfo)
    (h : s.engines[a.engine]? = some e) :
    ∃ xs e' o, Engine.Talk e xs e' ∧ Pricing w s.config.effectiveConfirmations infos xs o ∧
      ((infos.map AccountInfo.lookAhead).mapM (price w a)).exec s = (o, s.withEngine a.engine e') := by
  induction infos generalizing s e with
  | nil =>
    refine ⟨[], e, .ok [], .nil e, .done, ?_⟩
    rw [List.map_nil, List.mapM_nil, exec_pure, withEngine_self h]
  | cons info infos ih =>
    have hbalance := accountBalance_exec a h info.number s.config.effectiveConfirmations
    rw [List.map_cons, List.mapM_cons]
    cases hreply : balanceOfReply
        (Engine.ask (.balance info.number s.config.effectiveConfirmations) e).1 with
    | error f =>
      -- the loop ends here, and the accounts that are left are not asked for
      rw [hreply] at hbalance
      refine ⟨_, _, _, .cons _ (.nil _), .failed hreply, ?_⟩
      refine exec_bind_error ?_ _
      unfold price
      rw [exec_bind_ok (exec_get s)]
      exact exec_bind_error hbalance _
    | ok b =>
      rw [hreply] at hbalance
      -- the rest of the loop finds the engine after this call
      obtain ⟨xs, e', o, htalk, hpricing, hexec⟩ := ih (getElem?_withEngine h _)
      refine ⟨_, e', _, .cons _ htalk, .priced hreply (takenOver_lookAhead w info b) hpricing, ?_⟩
      -- the look-ahead is added to what was listed, whatever an earlier picture shows
      have hprice : (price w a info.lookAhead).exec s =
          (.ok { info.lookAhead with wallet := w, balance := b }, s.withEngine a.engine
            (Engine.ask (.balance info.number s.config.effectiveConfirmations) e).2) := by
        unfold price
        rw [exec_bind_ok (exec_get s)]
        exact exec_bind_ok hbalance _
      rw [exec_bind_ok hprice]
      rw [withEngine_withEngine] at hexec
      exact exec_map hexec _

/-! ## A refresh as a whole -/

/-- A new picture is put up once all balances are known. -/
theorem rebuild_exec (w : WalletId) (key : Nat) (a : Access) (h : s.engines[a.engine]? = some e) :
    ∃ xs e' o, Engine.Talk e xs e' ∧
      Refreshing w a.scope s.config.effectiveConfirmations xs o ∧
      (rebuild w key a).exec s = (o, match o with
        | .ok snapshot => (s.withEngine a.engine e').modifyRegistration key fun r =>
            { r with snapshot := some snapshot }
        | .error _ => s.withEngine a.engine e') := by
  have hcall := call_exec a h (.accounts a.scope)
  unfold rebuild listAccounts
  cases hreply : (Engine.ask (.accounts a.scope) e).1 with
  | error f =>
    rw [hreply] at hcall
    refine ⟨[⟨.accounts a.scope, .error f⟩], (Engine.ask (.accounts a.scope) e).2,
      .error (Failure.ofEngine f), ?_, .failed, ?_⟩
    · rw [← hreply]
      exact .cons _ (.nil _)
    · exact exec_bind_error (exec_bind_error hcall _) _
  | ok listing =>
    rw [hreply] at hcall
    obtain ⟨xs, e', o, htalk, hpricing, hexec⟩ :=
      prices_exec w a listing.accounts (getElem?_withEngine h (Engine.ask (.accounts a.scope) e).2)
    rw [withEngine_withEngine] at hexec
    refine ⟨⟨.accounts a.scope, .ok listing⟩ :: xs, e', _, ?_, .listed hpricing, ?_⟩
    · rw [← hreply]
      exact .cons _ htalk
    · rw [exec_bind_ok (exec_bind_ok hcall _)]
      cases o with
      | error f => exact exec_bind_error hexec _
      | ok accounts =>
        refine (exec_bind_ok hexec _).trans ?_
        rfl

/-- A refresh of a loaded wallet lines up, takes the picture and leaves the line. -/
theorem refresh_exec_eq (hkey : s.key? w = some key) {r : Registration}
    (hr : s.registration? w = some r) (ticket : Nat) :
    (refresh ticket w).exec s =
      (((rebuild w key r.access).exec (s.lineUp key ticket)).1,
        ((rebuild w key r.access).exec (s.lineUp key ticket)).2.leave ticket) := by
  have hacquire : (acquire key ticket).exec s = (.ok (), s.lineUp key ticket) := rfl
  unfold refresh
  rw [exec_bind_ok (entry_exec_some hkey hr)]
  dsimp only
  rw [exec_bind_ok hacquire, exec_bind_ok (exec_attempt _ _), exec_bind_ok (exec_modify _ _),
    exec_conclude]

/-- A refresh of a loaded wallet is a talk with its engine, what comes of it, and a
picture put up on success. -/
theorem refresh_exec (hs : s.Sound) (ticket : Nat) {r : Registration}
    (hr : s.registration? w = some r) :
    ∃ e xs e' o s', s.engines[r.access.engine]? = some e ∧
      (refresh ticket w).exec s = (o, s') ∧ Engine.Talk e xs e' ∧
      Refreshing w r.access.scope s.config.effectiveConfirmations xs o ∧
      s'.engines = s.engines.set r.access.engine e' ∧
      ∀ w', s'.snapshot? w' = match o with
        | .ok snapshot => if w' = w then some snapshot else s.snapshot? w'
        | .error _ => s.snapshot? w' := by
  obtain ⟨key, hkey, -⟩ := Option.bind_eq_some_iff.mp hr
  obtain ⟨e, he⟩ := hs.engine hr
  -- to line up changes neither the engines nor a picture
  have hs₁ : (s.lineUp key ticket).Sound := hs.modifyRegistration key fun _ => rfl
  have hsnapshot₁ : ∀ w', (s.lineUp key ticket).snapshot? w' = s.snapshot? w' := fun _ =>
    snapshot?_modify_of (f := fun r => { r with line := r.line ++ [ticket] }) (fun _ => rfl) key
  have hkey₁ : (s.lineUp key ticket).key? w = some key := hkey
  have he₁ : (s.lineUp key ticket).engines[r.access.engine]? = some e := he
  obtain ⟨xs, e', o, htalk, hrefreshing, hrebuild⟩ := rebuild_exec w key r.access he₁
  have hexec := refresh_exec_eq hkey hr ticket
  rw [hrebuild] at hexec
  refine ⟨e, xs, e', o, _, he, hexec, htalk, hrefreshing, ?_, fun w' => ?_⟩
  · cases o <;> rfl
  · rw [snapshot?_leave, ← hsnapshot₁]
    cases o with
    | error f => rfl
    | ok snapshot => exact snapshot?_modify_put (hs₁.withEngine r.access.engine e') hkey₁ snapshot w'

/-- A refresh is atomic: the engine goes through the calls and no others, and then
either the new picture is returned and stored, or the failure is returned and there is
what there was. No other wallet's picture changes. -/
theorem refresh_atomic (hs : s.Sound) (ticket : Nat) (w : WalletId) :
    (s.registration? w = none → (refresh ticket w).exec s = (.error (.notFound (.wallet w)), s)) ∧
    ∀ r, s.registration? w = some r → ∃ e xs e' o s',
      s.engines[r.access.engine]? = some e ∧ Engine.Talk e xs e' ∧
      Refreshing w r.access.scope s.config.effectiveConfirmations xs o ∧
      (refresh ticket w).exec s = (o, s') ∧
      s'.engines = s.engines.set r.access.engine e' ∧
      (∀ snapshot, o = .ok snapshot → s'.snapshot? w = some snapshot) ∧
      (∀ f, o = .error f → s'.snapshot? w = s.snapshot? w) ∧
      ∀ w', w' ≠ w → s'.snapshot? w' = s.snapshot? w' := by
  constructor
  · intro hw
    exact exec_bind_error (entry_exec_none hw) _
  · intro r hr
    obtain ⟨e, xs, e', o, s', he, hexec, htalk, hrefreshing, hengines, hsnapshots⟩ :=
      refresh_exec hs ticket hr
    refine ⟨e, xs, e', o, s', he, htalk, hrefreshing, hexec, hengines, ?_, ?_, ?_⟩
    · intro snapshot ho
      subst ho
      exact (hsnapshots w).trans (if_pos rfl)
    · intro f ho
      subst ho
      exact hsnapshots w
    · intro w' hne
      cases o with
      | error f => exact hsnapshots w'
      | ok snapshot => exact (hsnapshots w').trans (if_neg hne)

/-! ## Taking a first picture -/

/-- Only where there is no picture yet one is taken. -/
theorem accountsOrRefresh_exec (ticket : Nat) (w : WalletId) (s : Registry ε) :
    (accountsOrRefresh ticket w).exec s =
      match s.snapshot? w with
      | some p => (.ok p, s)
      | none => (refresh ticket w).exec s := by
  unfold accountsOrRefresh
  rw [exec_bind_ok (exec_attempt _ s)]
  cases h : s.snapshot? w with
  | some p =>
    rw [accounts_exec_some h]
    rfl
  | none =>
    obtain ⟨missing, hexec⟩ := accounts_exec_none h
    rw [hexec]
    rfl

/-- Where the engine is missing no accounts are listed. -/
theorem rebuild_exec_none (w : WalletId) (key : Nat) (a : Access)
    (h : s.engines[a.engine]? = none) :
    (rebuild w key a).exec s = (.error (Failure.ofEngine noEngine), s) := by
  have hcall : (call a (.accounts a.scope)).exec s = (.error (Failure.ofEngine noEngine), s) := by
    show Flow.run (ask a.engine (.accounts a.scope) >>= fun r => pure (r.mapError Failure.ofEngine)) s = _
    rw [Flow.run_bind, ask_run_none h]
    rfl
  unfold rebuild listAccounts
  exact exec_bind_error (exec_bind_error hcall _) _

/-- The picture that a refresh returns is the wallet's from then on. -/
theorem refresh_exec_ok {ticket : Nat} {p : Accounts} {s' : Registry ε}
    (h : (refresh ticket w).exec s = (.ok p, s')) : s'.snapshot? w = some p := by
  cases hr : s.registration? w with
  | none =>
    have hfailed : (refresh ticket w).exec s = (.error (.notFound (.wallet w)), s) :=
      exec_bind_error (entry_exec_none hr) _
    rw [hfailed] at h
    cases h
  | some r =>
    obtain ⟨key, hkey, hreg⟩ := Option.bind_eq_some_iff.mp hr
    obtain ⟨hlt, -⟩ := List.getElem?_eq_some_iff.mp hreg
    rw [refresh_exec_eq hkey hr] at h
    cases he : s.engines[r.access.engine]? with
    | none =>
      have hmissing : (s.lineUp key ticket).engines[r.access.engine]? = none := he
      rw [rebuild_exec_none w key r.access hmissing] at h
      cases h
    | some e =>
      have hthere : (s.lineUp key ticket).engines[r.access.engine]? = some e := he
      obtain ⟨xs, e', o, -, -, hrebuild⟩ := rebuild_exec w key r.access hthere
      rw [hrebuild] at h
      cases o with
      | error f => cases h
      | ok p' =>
        cases h
        rw [snapshot?_leave, snapshot?_eq]
        show (s.key? w).bind _ = _
        rw [hkey, Option.bind_some]
        show (((s.registrations.modify key _).modify key _)[key]?).bind _ = _
        simp [List.getElem?_eq_getElem hlt]

/-- Two wallets of one engine, which cannot tell the second balance. -/
def pair : Registry InMemoryEngine where
  config := {}
  engines := [{
    asset := .dcr
    accounts := [
      { number := 0, name := "a", balance := .signed 500 500 0 0 0 0 0 },
      { number := 1, name := "b", balance := .signed 0 0 0 0 0 0 0 }]
    blockHash := default
    blockHeight := 5
    failingBalance := some 1 }]
  registrations := [
    { access := ⟨0, .dcr, .mainnet⟩, snapshot := some ⟨[], default, 4⟩ },
    { access := ⟨0, .dcr, .mainnet⟩, snapshot := some ⟨[], default, 3⟩ }]
  wallets := [(7, 0), (8, 1)]

/-- The same wallets once the engine can tell all balances. -/
def pairMended : Registry InMemoryEngine :=
  { pair with engines := pair.engines.map fun e => { e with failingBalance := none } }

theorem sound_pair : pair.Sound :=
  sound_of_nodup (by decide) (by decide) (by decide)

/-- As long as the second balance cannot be had both pictures stay; then the one wallet gets a
new picture and the other one keeps its own. -/
theorem refresh_atomic_pair :
    pair.Sound ∧ pair.registration? 7 = some ⟨⟨0, .dcr, .mainnet⟩, some ⟨[], default, 4⟩, []⟩ ∧
    ((refresh 0 7).exec pair).1.toOption = none ∧
    ((refresh 0 7).exec pair).2.snapshot? 7 = some ⟨[], default, 4⟩ ∧
    ((refresh 0 7).exec pair).2.snapshot? 8 = some ⟨[], default, 3⟩ ∧
    ∃ xs p, xs.map Exchange.call = [.accounts none, .balance 0 1, .balance 1 1] ∧
      Refreshing 7 none 1 xs (.ok p) ∧
      ((refresh 0 7).exec pairMended).2.snapshot? 7 = some p ∧
      ((refresh 0 7).exec pairMended).2.snapshot? 8 = some ⟨[], default, 3⟩ := by
  have hfailed : ((refresh 0 7).exec pair).1.toOption = none := by decide
  have hnumbers : ((refresh 0 7).exec pairMended).1.toOption.map (·.accounts.map (·.number)) =
      some [0, 1] := by decide
  have hloaded := (refresh_atomic sound_pair 0 7).2 _ rfl
  have hmended := (refresh_atomic (s := pairMended)
    (sound_of_nodup (by decide) (by decide) (by decide)) 0 7).2 _ rfl
  obtain ⟨e, xs, e', o, s', -, -, -, hexec, -, -, hkept, hothers⟩ := hloaded
  obtain ⟨-, ys, -, o', t', -, -, hrefreshing, hexec', -, hput, -, hothers'⟩ := hmended
  rw [hexec] at hfailed ⊢
  rw [hexec'] at hnumbers ⊢
  refine ⟨sound_pair, rfl, hfailed, ?_, hothers 8 (by decide), ?_⟩
  · cases o with
    | ok snapshot => cases hfailed
    | error f => exact hkept f rfl
  · cases o' with
    | error f => cases hnumbers
    | ok p =>
      refine ⟨ys, p, ?_, hrefreshing, hput p rfl, hothers' 8 (by decide)⟩
      have hlisted : p.accounts.map (·.number) = [0, 1] := Option.some.inj hnumbers
      have hbalances := congrArg (List.map (Call.balance · 1)) hlisted
      rw [List.map_map] at hbalances
      rw [hrefreshing.calls_ok rfl]
      exact congrArg (Call.accounts none :: ·) hbalances

end Registry

end Purse
