import Purse.Proofs.Registry.Holding

/-!
# What is cached agrees with what is asked for

A picture answers for the accounts of a wallet as they were at the last refresh, the engine for
those it has now. If a refresh has succeeded and the engine's accounts have stayed as they were,
the picture shows account by account what the engine holds (`refresh_secures_balances`). While
this is so and no call is made to fail (`Undisturbed`), a search by number ends in both lists at the
same account or in neither (`find?_of_bears`), and every answer is settled: it does not matter
which way an account is asked for (`Agreement`). Names may be repeated, the numbers may not.

Main statement: `cached_agrees`.
-/

namespace Purse

/-! ## Engines that refuse nothing -/

/-- An engine of which this is true refuses no call as it arrives, and no call makes it untrue. -/
structure RefusesNone {ε : Type} [Engine ε] (calm : ε → Prop) : Prop where
  receives : ∀ (c : Call) (e : ε), calm e → (Engine.receive c e).1 = none
  receive : ∀ (c : Call) (e : ε), calm e → calm (Engine.receive c e).2
  enter : ∀ (c : Call) (e : ε), calm e → calm (Engine.enter c e).2
  answer : ∀ (c : Call) (e : ε), calm e → calm (Engine.answer c e).2

theorem refusesNone_self : RefusesNone fun _ : InMemoryEngine => True where
  receives _ _ _ := rfl
  receive _ _ _ := trivial
  enter _ _ _ := trivial
  answer _ _ _ := trivial

theorem Monitored.receive_faultless {ε : Type} {m : Monitored ε} (h : m.faults = []) (c : Call) :
    m.receive c = (none, { m with log := c :: m.log }) := by
  unfold receive
  dsimp only
  rw [h]
  rfl

/-- A monitor without faults refuses nothing. -/
theorem RefusesNone.monitored {ε : Type} [Engine ε] {calm : ε → Prop} (h : RefusesNone calm) :
    RefusesNone fun m : Monitored ε => m.faults = [] ∧ calm m.engine where
  receives c m hm := congrArg Prod.fst (Monitored.receive_faultless hm.1 c)
  receive c m hm := by
    have hsame : (Engine.receive c m).2 = { m with log := c :: m.log } :=
      congrArg Prod.snd (Monitored.receive_faultless hm.1 c)
    rw [hsame]
    exact hm
  enter c m hm := ⟨hm.1, h.enter c m.engine hm.2⟩
  answer c m hm := ⟨hm.1, h.answer c m.engine hm.2⟩

/-- A call about one account, which changes nothing. -/
def Call.Looks : Call → Prop
  | balance _ _ | accountName _ _ | accountNumber _ _ => True
  | _ => False

theorem InMemoryEngine.answer_looks {c : Call} (hc : c.Looks) (e : InMemoryEngine) :
    (e.answer c).2 = e := by
  cases c with
  | balance => rfl
  | accountName scope number =>
    unfold answer
    dsimp only
    cases e.account? number <;> rfl
  | accountNumber scope name =>
    unfold answer
    dsimp only
    cases e.named? name <;> rfl
  | _ => exact hc.elim

namespace Registry

variable {ε : Type} {inner : ε → InMemoryEngine} {calm : ε → Prop} {w : WalletId} {p : Accounts}
  {stored : List StoredAccount} {key : Nat} {a : Access}

/-- The wallet has this picture, and is reached through an engine that holds these accounts and
has no faults. -/
structure Undisturbed (inner : ε → InMemoryEngine) (calm : ε → Prop) (w : WalletId) (p : Accounts)
    (stored : List StoredAccount) (key : Nat) (a : Access) (s : Registry ε) : Prop where
  loaded : s.key? w = some key
  pictured : ∃ r, s.registrations[key]? = some r ∧ r.access = a ∧ r.snapshot = some p
  held : ∃ e, s.engines[a.engine]? = some e ∧ (inner e).accounts = stored ∧
    (inner e).failingBalance = none ∧ calm e

/-! ## What is cached -/

theorem entry_settles : (entry w : Op ε (Nat × Registration)).Settles
    (Undisturbed inner calm w p stored key a)
    fun o => ∃ kr, (kr.1 = key ∧ kr.2.access = a) ∧ o = .ok kr := by
  unfold entry
  refine .bind_ok (.pauseFor _) (.bind_of_ok .read fun s hs => ?_)
  obtain ⟨r, hr, haccess, -⟩ := hs.pictured
  have hregistration : s.registration? w = some r :=
    Option.bind_eq_some_iff.mpr ⟨key, hs.loaded, hr⟩
  simp only [hs.loaded, hregistration]
  exact .pure ⟨_, ⟨rfl, haccess⟩, rfl⟩

theorem access_settles : (access w : Op ε Access).Settles
    (Undisturbed inner calm w p stored key a) (· = .ok a) := by
  unfold access
  refine .bind_of_ok entry_settles fun kr hkr => ?_
  exact .pure (congrArg Except.ok hkr.2)

theorem accounts_settles : (accounts w : Op ε Accounts).Settles
    (Undisturbed inner calm w p stored key a) (· = .ok p) := by
  unfold accounts
  refine .bind_of_ok entry_settles fun kr hkr => ?_
  refine .bind_ok (.pauseFor _) (.bind_of_ok .read fun s hs => ?_)
  obtain ⟨r, hr, -, hpicture⟩ := hs.pictured
  simp only [hkr.1, hr, Option.bind_some, hpicture]
  exact .pure rfl

/-- What a picture says about a number. -/
def cached (p : Accounts) (w : WalletId) (number : UInt32) : Outcome Account :=
  match p.get? number with
  | some account => .ok account
  | none => .error (.notFound (.account number w))

theorem lookup_settles (number : UInt32) : (lookup w number : Op ε Account).Settles
    (Undisturbed inner calm w p stored key a) (· = cached p w number) := by
  unfold lookup cached
  refine .bind_ok accounts_settles ?_
  cases p.get? number with
  | some account => exact .pure rfl
  | none => exact .conclude rfl

/-! ## What is asked for -/

theorem onEngine_settles {α : Type} {Q : α → Prop} {missing : α} {f : ε → α × ε}
    (h : ∀ e, (inner e).accounts = stored → (inner e).failingBalance = none → calm e →
      ((inner (f e).2).accounts = stored ∧ (inner (f e).2).failingBalance = none ∧
        calm (f e).2) ∧ Q (f e).1) :
    (onEngine a.engine missing f : Flow Wait (Registry ε) α).Secures
      (Undisturbed inner calm w p stored key a) Q := by
  refine .change fun s hs => ?_
  obtain ⟨e, he, hstored, hbalance, hcalm⟩ := hs.held
  obtain ⟨hleft, hvalue⟩ := h e hstored hbalance hcalm
  simp only [he]
  exact ⟨⟨hs.loaded, hs.pictured, (f e).2, getElem?_withEngine he _, hleft⟩, hvalue⟩

variable [Engine ε]

/-- An engine in memory that holds the accounts, and of which no balance fails, answers this. -/
def Replies (stored : List StoredAccount) (c : Call) (reply : Except EngineError c.Answer) :
    Prop :=
  ∃ e : InMemoryEngine, e.accounts = stored ∧ e.failingBalance = none ∧ reply = (e.answer c).1

theorem ask_settles (hinner : HeldInMemory inner) (hcalm : RefusesNone calm) {c : Call}
    (hc : c.Looks) : (ask a.engine c : Flow Wait (Registry ε) (Except EngineError c.Answer)).Secures
      (Undisturbed inner calm w p stored key a) (Replies stored c) := by
  have hreceive : (onEngine a.engine (some noEngine) (Engine.receive c) :
      Flow Wait (Registry ε) (Option EngineError)).Secures (Undisturbed inner calm w p stored key a)
        (· = none) := by
    refine onEngine_settles fun e hstored hbalance he => ⟨?_, hcalm.receives c e he⟩
    rw [hinner.receive]
    exact ⟨hstored, hbalance, hcalm.receive c e he⟩
  have henter : (onEngine a.engine {} (Engine.enter c) :
      Flow Wait (Registry ε) Passage).Secures (Undisturbed inner calm w p stored key a)
        fun _ => True := by
    refine onEngine_settles fun e hstored hbalance he => ⟨?_, trivial⟩
    obtain ⟨counts, hcounted⟩ := InMemoryEngine.countCall_eq c (inner e)
    rw [hinner.enter, hcounted]
    exact ⟨hstored, hbalance, hcalm.enter c e he⟩
  have hanswer : (onEngine a.engine (.error noEngine) (Engine.answer c) :
      Flow Wait (Registry ε) (Except EngineError c.Answer)).Secures
        (Undisturbed inner calm w p stored key a) (Replies stored c) := by
    refine onEngine_settles fun e hstored hbalance he => ?_
    have hheld := hinner.answer c e
    have hreply : (Engine.answer c e).1 = ((inner e).answer c).1 := congrArg Prod.fst hheld
    have hleft : inner (Engine.answer c e).2 = ((inner e).answer c).2 := congrArg Prod.snd hheld
    rw [hleft, InMemoryEngine.answer_looks hc]
    exact ⟨⟨hstored, hbalance, hcalm.answer c e he⟩, inner e, hstored, hbalance, hreply⟩
  exact ask_secures_of hreceive (fun _ heq => nomatch heq) henter hanswer

theorem call_settles (hinner : HeldInMemory inner) (hcalm : RefusesNone calm) {c : Call}
    (hc : c.Looks) : (call a c : Op ε c.Answer).Settles (Undisturbed inner calm w p stored key a)
      fun o => ∃ reply, Replies stored c reply ∧ o = reply.mapError Failure.ofEngine :=
  Flow.Secures.bind (ask_settles hinner hcalm hc) fun reply hreply => .pure ⟨reply, hreply, rfl⟩

/-- What is said of the account that is found, if one is. -/
def saidOf {β : Type} (found : Option StoredAccount) (missing : EngineError)
    (f : StoredAccount → β) : Except EngineError β :=
  match found with
  | some x => .ok (f x)
  | none => .error missing

theorem reply_accountName {scope : Option KeyScope} {number : UInt32}
    {reply : Except EngineError String} (h : Replies stored (.accountName scope number) reply) :
    reply =
      saidOf (stored.find? (·.number = number)) (InMemoryEngine.noAccount number) (·.name) := by
  obtain ⟨e, rfl, -, rfl⟩ := h
  unfold InMemoryEngine.answer InMemoryEngine.account? saidOf
  dsimp only
  cases e.accounts.find? (·.number = number) <;> rfl

theorem reply_accountNumber {scope : Option KeyScope} {name : String}
    {reply : Except EngineError UInt32} (h : Replies stored (.accountNumber scope name) reply) :
    reply = saidOf (stored.find? (·.name = name)) (.missing name) (·.number) := by
  obtain ⟨e, rfl, -, rfl⟩ := h
  unfold InMemoryEngine.answer InMemoryEngine.named? saidOf
  dsimp only
  cases e.accounts.find? (·.name = name) <;> rfl

theorem reply_balance {number confirmations : UInt32} {reply : Except EngineError ReportedBalance}
    (h : Replies stored (.balance number confirmations) reply) :
    reply = saidOf (stored.find? (·.number = number)) (InMemoryEngine.noAccount number)
      (·.balance) := by
  obtain ⟨e, rfl, hbalance, rfl⟩ := h
  unfold InMemoryEngine.answer InMemoryEngine.balanceOf InMemoryEngine.account? saidOf
  dsimp only
  rw [hbalance]
  refine (if_neg nofun).trans ?_
  cases e.accounts.find? (·.number = number) <;> rfl

section Asking

variable (hinner : HeldInMemory inner) (hcalm : RefusesNone calm)

include hinner hcalm

theorem accountName_settles (number : UInt32) : (accountName w number : Op ε String).Settles
    (Undisturbed inner calm w p stored key a) (· = (saidOf (stored.find? (·.number = number))
      (InMemoryEngine.noAccount number) (·.name)).mapError Failure.ofEngine) := by
  unfold accountName
  refine .bind_ok access_settles
    ((call_settles hinner hcalm (c := .accountName _ number) trivial).mono fun o h => ?_)
  obtain ⟨reply, hreply, rfl⟩ := h
  rw [reply_accountName hreply]

theorem numberForName_settles (name : String) : (numberForName w name : Op ε UInt32).Settles
    (Undisturbed inner calm w p stored key a) (· = (saidOf (stored.find? (·.name = name))
      (.missing name) (·.number)).mapError Failure.ofEngine) := by
  unfold numberForName
  refine .bind_ok access_settles
    ((call_settles hinner hcalm (c := .accountNumber _ name) trivial).mono fun o h => ?_)
  obtain ⟨reply, hreply, rfl⟩ := h
  rw [reply_accountNumber hreply]

theorem accountBalance_settles (number confirmations : UInt32) :
    (accountBalance a number confirmations : Op ε Balance).Settles
      (Undisturbed inner calm w p stored key a) (· = outcomeOfReply ReportedBalance.toBalance
        (saidOf (stored.find? (·.number = number)) (InMemoryEngine.noAccount number)
          (·.balance))) := by
  unfold accountBalance accept
  refine .bind (call_settles hinner hcalm (c := .balance number confirmations) trivial)
    (fun e h => ?_) fun report h => ?_
  · obtain ⟨reply, hreply, heq⟩ := h
    rw [← reply_balance hreply]
    cases reply <;> cases heq
    rfl
  · obtain ⟨reply, hreply, heq⟩ := h
    rw [← reply_balance hreply]
    cases reply <;> cases heq
    exact .conclude rfl

theorem spendableForAccount_settles (number : UInt32) :
    (spendableForAccount w number : Op ε Amount).Settles (Undisturbed inner calm w p stored key a)
      (· = (outcomeOfReply ReportedBalance.toBalance
        (saidOf (stored.find? (·.number = number)) (InMemoryEngine.noAccount number)
          (·.balance))).map (·.spendable)) := by
  unfold spendableForAccount
  refine .bind_ok access_settles (.bind_of_ok .read fun s _ => ?_)
  refine .bind (accountBalance_settles hinner hcalm number _) (fun e h => ?_) fun b h => .pure ?_
  · rw [← h]
    rfl
  · rw [← h]
    rfl

theorem hasAccount_settles (name : String) : (hasAccount w name : Op ε Bool).Settles
    (Undisturbed inner calm w p stored key a) (· = .ok (stored.find? (·.name = name)).isSome) := by
  unfold hasAccount
  refine .bind_of_ok (.attempt (numberForName_settles hinner hcalm name)) fun o ho => ?_
  rw [ho]
  cases stored.find? (·.name = name) <;> exact .pure rfl

theorem lookupByName_settles (name : String) : (lookupByName w name : Op ε Account).Settles
    (Undisturbed inner calm w p stored key a) (· = do
      cached p w (← (saidOf (stored.find? (·.name = name)) (.missing name)
        (·.number)).mapError Failure.ofEngine)) := by
  unfold lookupByName
  refine .bind (numberForName_settles hinner hcalm name) (fun e h => ?_) fun number h => ?_
  · rw [← h]
    rfl
  · rw [← h]
    exact lookup_settles number

end Asking

/-! ## Both ways to ask -/

/-- It does not matter whether an account is looked up in the picture or asked for; `tells` says
what an operation can come to. -/
structure Agreement (w : WalletId) (a : Access) (p : Accounts) (number : UInt32) (name : String)
    (tells : {α : Type} → Op ε α → Outcome α → Prop) : Prop where
  found : ∀ o o', tells (lookup w number) o → tells (accountName w number) o' →
    ((∃ account, o = .ok account) ↔ ∃ name, o' = .ok name)
  named : ∀ account o, tells (lookup w number) (.ok account) → tells (accountName w number) o →
    o = .ok account.name
  spendable : ∀ account o, tells (lookup w number) (.ok account) →
    tells (spendableForAccount w number) o → o = .ok account.balance.spendable
  balance : ∀ account confirmations o, tells (lookup w number) (.ok account) →
    tells (accountBalance a number confirmations) o → o = .ok account.balance
  foundByName : ∀ o o', tells (lookupByName w name) o → tells (hasAccount w name) o' →
    ((∃ account, o = .ok account) ↔ o' = .ok true)
  bears : ∀ account, tells (lookupByName w name) (.ok account) →
    account ∈ p.accounts ∧ account.name = name ∧
      ∀ o, tells (numberForName w name) o → o = .ok account.number

omit [Engine ε] in
/-- The picture says about a number what it shows of the account that is found by it. -/
theorem cached_of_shows (hshows : List.Forall₂ Account.Shows stored p.accounts) (number : UInt32) :
    (stored.find? (·.number = number) = none ∧ ∃ f, cached p w number = .error f) ∨
    ∃ x account, stored.find? (·.number = number) = some x ∧
      cached p w number = .ok account ∧ account ∈ p.accounts ∧ account.Shows x := by
  unfold cached Accounts.get?
  rcases find?_of_bears (fun _ _ h => h.info) hshows number with
    ⟨hnone, hpicture⟩ | ⟨x, account, hsome, hpicture, hx⟩
  · rw [hpicture]
    exact .inl ⟨hnone, _, rfl⟩
  · rw [hpicture]
    exact .inr ⟨x, account, hsome, rfl, List.mem_of_find?_eq_some hpicture, hx⟩

/-- If the picture shows the accounts, everything that is settled agrees. -/
theorem agreement_of_shows (key : Nat) (hinner : HeldInMemory inner)
    (hcalm : RefusesNone calm) (hnumbers : (stored.map (·.number)).Nodup)
    (hshows : List.Forall₂ Account.Shows stored p.accounts)
    {tells : {α : Type} → Op ε α → Outcome α → Prop}
    (htells : ∀ {α : Type} {x : Op ε α} {Q : Outcome α → Prop} {o : Outcome α},
      x.Settles (Undisturbed inner calm w p stored key a) Q → tells x o → Q o)
    (number : UInt32) (name : String) : Agreement w a p number name tells := by
  have hsearch := cached_of_shows (w := w) hshows
  -- what is looked up with success is an account that the engine finds
  have hstored : ∀ account, tells (lookup w number) (.ok account) →
      ∃ x, stored.find? (·.number = number) = some x ∧ account.Shows x := by
    intro account hlookup
    have hok := htells (lookup_settles number) hlookup
    rcases hsearch number with ⟨-, f, hf⟩ | ⟨x, account', hsome, hcached, -, hx⟩
    · cases hok.trans hf
    · cases hok.trans hcached
      exact ⟨x, hsome, hx⟩
  -- and so is what bears the name
  have hbyName : (stored.find? (·.name = name) = none) ∨ ∃ x account,
      stored.find? (·.name = name) = some x ∧ cached p w x.number = .ok account ∧
        account ∈ p.accounts ∧ account.Shows x := by
    cases hname : stored.find? (·.name = name) with
    | none => exact .inl rfl
    | some x =>
      have hx := find?_of_nodup hnumbers (List.mem_of_find?_eq_some hname)
      right
      rcases hsearch x.number with ⟨hnone, -⟩ | ⟨x', account, hsome, hcached, hmem, hshown⟩
      · cases hx.symm.trans hnone
      · cases hx.symm.trans hsome
        exact ⟨x, account, rfl, hcached, hmem, hshown⟩
  refine ⟨?_, ?_, ?_, ?_, ?_, ?_⟩
  · intro o o' ho ho'
    rw [htells (lookup_settles number) ho,
      htells (accountName_settles hinner hcalm number) ho']
    rcases hsearch number with ⟨hnone, f, hf⟩ | ⟨x, account, hsome, hcached, -, -⟩
    · rw [hnone, hf]
      constructor <;> rintro ⟨_, heq⟩ <;> cases heq
    · rw [hsome, hcached]
      exact ⟨fun _ => ⟨_, rfl⟩, fun _ => ⟨_, rfl⟩⟩
  · intro account o ho ho'
    obtain ⟨x, hsome, hx⟩ := hstored account ho
    rw [htells (accountName_settles hinner hcalm number) ho', hsome]
    exact congrArg Except.ok hx.info.name.symm
  · intro account o ho ho'
    obtain ⟨x, hsome, hx⟩ := hstored account ho
    rw [htells (spendableForAccount_settles hinner hcalm number) ho', hsome]
    show (x.balance.toBalance.mapError Failure.backend).map _ = _
    rw [hx.balance]
    rfl
  · intro account confirmations o ho ho'
    obtain ⟨x, hsome, hx⟩ := hstored account ho
    rw [htells (accountBalance_settles hinner hcalm number confirmations) ho', hsome]
    show x.balance.toBalance.mapError Failure.backend = _
    rw [hx.balance]
    rfl
  · intro o o' ho ho'
    rw [htells (lookupByName_settles hinner hcalm name) ho,
      htells (hasAccount_settles hinner hcalm name) ho']
    rcases hbyName with hnone | ⟨x, account, hsome, hcached, -, -⟩
    · rw [hnone]
      constructor
      · rintro ⟨_, heq⟩
        cases heq
      · intro heq
        cases heq
    · rw [hsome]
      exact ⟨fun _ => rfl, fun _ => ⟨account, hcached⟩⟩
  · intro account ho
    have hok := htells (lookupByName_settles hinner hcalm name) ho
    rcases hbyName with hnone | ⟨x, account', hsome, hcached, hmem, hx⟩
    · rw [hnone] at hok
      cases hok
    · rw [hsome] at hok
      cases hok.trans hcached
      have hname : x.name = name := by simpa using List.find?_some hsome
      refine ⟨hmem, hx.info.name.trans hname, fun o ho' => ?_⟩
      rw [htells (numberForName_settles hinner hcalm name) ho', hsome]
      exact congrArg Except.ok hx.info.number.symm

/-- After a refresh that succeeded a wallet's picture agrees with its engine, for as long as the
picture stays, the accounts of the engine stay as they were, and no call is made to fail: if
nobody is about, and in any company that keeps to that, during the refresh and afterwards. -/
theorem cached_agrees (hinner : HeldInMemory inner) (hcalm : RefusesNone calm)
    (hnumbers : (stored.map (·.number)).Nodup) :
    (∀ (s s₁ : Registry ε) (n ticket : Nat) (w : WalletId) (p : Accounts),
      Holds inner w n stored s → (refresh ticket w).exec s = (.ok p, s₁) →
      Holds inner w n stored s₁ ∧ s₁.snapshot? w = some p ∧
      ∀ (s₂ : Registry ε) (key : Nat) (a : Access), Undisturbed inner calm w p stored key a s₂ →
        ∀ number name, Agreement w a p number name fun x o => (x.exec s₂).1 = o) ∧
    ∀ (ts : List (Turn Wait (Registry ε))) (s₁ : Registry ε) (n ticket : Nat) (w : WalletId)
      (p : Accounts), (refresh ticket w).run.Course ts (.done (.ok p) s₁) →
      (∀ τ ∈ ts, Holds inner w n stored τ.found) →
      ∀ (key : Nat) (a : Access) number name, Agreement w a p number name fun x o =>
        ∃ ts s, x.run.Course ts (.done o s) ∧
          ∀ τ ∈ ts, Undisturbed inner calm w p stored key a τ.found := by
  refine ⟨?_, ?_⟩
  · intro s s₁ n ticket w p hholds hexec
    obtain ⟨hholds', hshows⟩ :=
      (refresh_secures_balances hinner hnumbers ticket).run hholds .answer
    rw [show (refresh ticket w).run.run s = _ from hexec] at hholds' hshows
    refine ⟨hholds', refresh_exec_ok hexec, fun s₂ key a hsettled number name => ?_⟩
    refine agreement_of_shows key hinner hcalm hnumbers (hshows p rfl) (fun hx ho => ?_) number name
    rw [← ho]
    exact (Flow.Secures.run hx hsettled .answer).2
  · intro ts s₁ n ticket w p hc hholds key a number name
    obtain ⟨-, hshows⟩ := refresh_secures_balances hinner hnumbers ticket ts _ hc hholds
    refine agreement_of_shows key hinner hcalm hnumbers (hshows _ _ rfl p rfl) (fun hx ho => ?_)
      number name
    obtain ⟨ts', s, hc', hsettled⟩ := ho
    exact (hx ts' _ hc' hsettled).2 _ _ rfl

namespace Sample

/-- Two of these accounts have the same name. -/
def namesakes : List StoredAccount := [
  { number := 0, name := "savings", balance := .signed 500 400 0 0 0 0 0 },
  { number := 3, name := "savings", balance := .signed 70 60 5 5 0 0 0 },
  { number := 1, name := "b", balance := .signed 0 0 0 0 0 0 0 }]

/-- A wallet with these accounts, never refreshed. -/
def unseen : Registry (Monitored InMemoryEngine) where
  config := {}
  engines := [{
    engine := { asset := .dcr, accounts := namesakes, blockHash := default, blockHeight := 5 } }]
  registrations := [{ access := ⟨0, .dcr, .mainnet⟩ }]
  wallets := [(7, 0)]

/-- The wallet when it has been refreshed. -/
def seen : Registry (Monitored InMemoryEngine) :=
  ((refresh 0 7).exec unseen).2

/-- The picture that has been taken. -/
def seenAccounts : Accounts where
  accounts := [
    { number := 0, name := "savings", externalKeys := 20, internalKeys := 20, importedKeys := 0,
      wallet := 7, balance := ⟨⟨500⟩, ⟨400⟩, ⟨0⟩⟩ },
    { number := 3, name := "savings", externalKeys := 20, internalKeys := 20, importedKeys := 0,
      wallet := 7, balance := ⟨⟨70⟩, ⟨60⟩, ⟨10⟩⟩ },
    { number := 1, name := "b", externalKeys := 20, internalKeys := 20, importedKeys := 0,
      wallet := 7, balance := ⟨⟨0⟩, ⟨0⟩, ⟨0⟩⟩ }]
  blockHash := default
  blockHeight := 5

end Sample

open Sample

/-- Of two accounts with one name the first is found both ways, and the other by its number. -/
theorem cached_agrees_namesakes :
    (refresh 0 7).exec unseen = (.ok seenAccounts, seen) ∧
    Undisturbed Monitored.engine (fun m => m.faults = [] ∧ True) 7 seenAccounts namesakes 0
      ⟨0, .dcr, .mainnet⟩ seen ∧
    (∀ number name, Agreement 7 ⟨0, .dcr, .mainnet⟩ seenAccounts number name
      fun x o => (x.exec seen).1 = o) ∧
    ((lookupByName 7 "savings").exec seen).1.toOption.map (·.number) = some 0 ∧
    ((lookup 7 3).exec seen).1.toOption.map (·.balance.spendable) = some ⟨60⟩ ∧
    ((hasAccount 7 "Savings").exec seen).1 = .ok false ∧
    ∃ ts, (refresh 0 7).run.Course ts (.done (.ok seenAccounts) seen) ∧
      ∀ key a number name, Agreement 7 a seenAccounts number name fun x o =>
        ∃ ts s, x.run.Course ts (.done o s) ∧ ∀ τ ∈ ts,
          Undisturbed Monitored.engine (fun m => m.faults = [] ∧ True) 7 seenAccounts namesakes
            key a τ.found := by
  have hheld : HeldInMemory (Monitored.engine : Monitored InMemoryEngine → InMemoryEngine) :=
    heldInMemory_self.monitored
  have hnumbers : (namesakes.map (·.number)).Nodup := by decide
  have hexec : (refresh 0 7).exec unseen = (.ok seenAccounts, seen) :=
    Prod.ext (by decide +kernel) rfl
  have hholds : Holds Monitored.engine 7 0 namesakes unseen := by
    refine ⟨fun r hr => ?_, fun e he => ?_⟩
    · cases hr
      rfl
    · cases he
      rfl
  obtain ⟨halone, hcompany⟩ := cached_agrees hheld refusesNone_self.monitored hnumbers
  have hsettled : Undisturbed Monitored.engine (fun m => m.faults = [] ∧ True) 7 seenAccounts
      namesakes 0 ⟨0, .dcr, .mainnet⟩ seen :=
    ⟨rfl, ⟨_, rfl, rfl, rfl⟩, ⟨_, rfl, rfl, rfl, rfl, trivial⟩⟩
  refine ⟨hexec, hsettled, fun number name => ?_, by decide +kernel, by decide +kernel,
    by decide +kernel, ?_⟩
  · exact (halone unseen seen 0 0 7 seenAccounts hholds hexec).2.2 seen 0 _ hsettled number name
  · obtain ⟨ts, hc, hfound⟩ :=
      (refresh_secures_balances hheld hnumbers 0).exists_course hholds .answer
    rw [show (refresh 0 7).run.run unseen = _ from hexec] at hc
    exact ⟨ts, hc, hcompany ts seen 0 0 7 seenAccounts hc hfound⟩

end Registry

end Purse
