import Purse.Proofs.Engine.Outputs
import Purse.Proofs.Registry.Gathering
import Purse.Proofs.Registry.Locking
import Purse.Proofs.Registry.Secured

/-!
# What an engine tells while its accounts stay

An engine in memory finds accounts by number and by name. While no two of them share either,
an account is found by its number, and its outputs by its name. `Holds` is what a wallet needs
to be told the truth about these accounts: wherever it is loaded it is reached through the
engine, and the engine holds them, whatever else becomes of engine and registry. No call that
asks about accounts changes them, so a refresh brings their numbers and names, whatever the
last picture shows (`refresh_secures`), and the balances if no two accounts share a number
(`refresh_secures_balances`), and outputs are listed account by account
(`unspentOutputs_secures`).
-/

namespace Purse

/-! ## Finding accounts -/

theorem find?_of_nodup {α β : Type} [DecidableEq β] {f : α → β} {l : List α}
    (h : (l.map f).Nodup) {a : α} (ha : a ∈ l) : l.find? (f · = f a) = some a := by
  induction l with
  | nil => cases ha
  | cons b l ih =>
    obtain ⟨hb, hrest⟩ := List.nodup_cons.mp h
    rcases List.mem_cons.mp ha with rfl | ha
    · exact List.find?_cons_of_pos (by simp)
    · have hne : f b ≠ f a := fun heq => hb (heq ▸ List.mem_map_of_mem ha)
      rw [List.find?_cons_of_neg (by simpa using hne)]
      exact ih hrest ha

namespace InMemoryEngine

variable {e : InMemoryEngine} {a : StoredAccount}

theorem account?_of_nodup (h : (e.accounts.map (·.number)).Nodup) (ha : a ∈ e.accounts) :
    e.account? a.number = some a :=
  find?_of_nodup h ha

theorem named?_of_nodup (h : (e.accounts.map (·.name)).Nodup) (ha : a ∈ e.accounts) :
    e.named? a.name = some a :=
  find?_of_nodup h ha

theorem accounts_countCall (c : Call) (e : InMemoryEngine) :
    (e.countCall c).accounts = e.accounts := by
  obtain ⟨counts, heq⟩ := countCall_eq c e
  rw [heq]

end InMemoryEngine

/-- A call that asks about accounts and changes none. -/
def Call.Asks : Call → Prop
  | accounts _ | balance _ _ | unspent _ _ | accountName _ _ => True
  | _ => False

theorem InMemoryEngine.accounts_answer {c : Call} (hc : c.Asks) (e : InMemoryEngine) :
    (e.answer c).2.accounts = e.accounts := by
  cases c with
  | accounts | balance | unspent => rfl
  | accountName scope number =>
    unfold answer
    dsimp only
    cases e.account? number <;> rfl
  | _ => exact hc.elim

/-- The number and the name are the account's. -/
structure AccountInfo.Bears (a : StoredAccount) (info : AccountInfo) : Prop where
  number : info.number = a.number
  name : info.name = a.name

/-- The account is shown under its number and name, with the balance of the first account that
has its number. -/
structure Account.Priced (accounts : List StoredAccount) (a : StoredAccount) (account : Account) :
    Prop where
  info : account.toAccountInfo.Bears a
  balance : ∃ x, accounts.find? (·.number = a.number) = some x ∧
    x.balance.toBalance = .ok account.balance

/-- The account is shown as it is, its balance included. -/
structure Account.Shows (a : StoredAccount) (account : Account) : Prop where
  info : account.toAccountInfo.Bears a
  balance : a.balance.toBalance = .ok account.balance

/-- A search by number ends in both lists at the same account, or in neither. -/
theorem find?_of_bears {R : StoredAccount → Account → Prop} {accounts : List StoredAccount}
    {shown : List Account} (hR : ∀ a account, R a account → account.toAccountInfo.Bears a)
    (h : List.Forall₂ R accounts shown) (number : UInt32) :
    (accounts.find? (·.number = number) = none ∧ shown.find? (·.number = number) = none) ∨
    ∃ a account, accounts.find? (·.number = number) = some a ∧
      shown.find? (·.number = number) = some account ∧ R a account := by
  induction h with
  | nil => exact .inl ⟨rfl, rfl⟩
  | @cons a account accounts shown hshows _ ih =>
    have hsame : account.number = a.number := (hR a account hshows).number
    by_cases hnumber : a.number = number
    · right
      refine ⟨a, account, ?_, ?_, hshows⟩ <;> apply List.find?_cons_of_pos <;> simp [hsame, hnumber]
    · rw [List.find?_cons_of_neg (by simpa using hnumber),
        List.find?_cons_of_neg (by simpa [hsame] using hnumber)]
      exact ih

namespace Registry

variable {ε : Type} {inner : ε → InMemoryEngine} {w : WalletId} {n : Nat}
  {accounts : List StoredAccount} {s s' : Registry ε}

/-- Wherever the wallet is loaded it is reached through the engine, which holds the accounts. -/
structure Holds (inner : ε → InMemoryEngine) (w : WalletId) (n : Nat)
    (accounts : List StoredAccount) (s : Registry ε) : Prop where
  reached : ∀ r, s.registration? w = some r → r.access.engine = n
  held : ∀ e, s.engines[n]? = some e → (inner e).accounts = accounts

theorem Holds.withEngine (h : Holds inner w n accounts s) {e : ε}
    (he : (inner e).accounts = accounts) : Holds inner w n accounts (s.withEngine n e) := by
  refine ⟨h.reached, fun e' he' => ?_⟩
  have hset : (s.engines.set n e)[n]? = some e' := he'
  rw [List.getElem?_set_self'] at hset
  obtain ⟨_, -, rfl⟩ := Option.map_eq_some_iff.mp hset
  exact he

/-- Pictures and lines make no difference. -/
theorem Holds.of_same (h : Holds inner w n accounts s) (hsame : SameWallets s s')
    (he : s'.engines = s.engines) : Holds inner w n accounts s' := by
  refine ⟨fun r hr => ?_, fun e he' => h.held e (by rwa [he] at he')⟩
  have haccess := hsame.accessOf? w
  rw [hr] at haccess
  obtain ⟨r', hr', haccess'⟩ := Option.map_eq_some_iff.mp haccess.symm
  exact (congrArg Access.engine haccess').symm.trans (h.reached r' hr')

theorem entry_secures (w : WalletId) :
    (entry w : Op ε (Nat × Registration)).Secures (Holds inner w n accounts)
      fun kr => kr.2.access.engine = n := by
  unfold entry
  refine .bind (.pauseFor _) fun _ _ => .bind .read fun s hs => ?_
  split
  · next key r _ hr => exact .pure (hs.reached r hr)
  · exact .conclude fun _ heq => nomatch heq

theorem access_secures (w : WalletId) :
    (access w : Op ε Access).Secures (Holds inner w n accounts) fun a => a.engine = n :=
  .bind (entry_secures w) fun _ h => .pure h

theorem onEngine_secures {α : Type} {Q : α → Prop} {missing : α} {f : ε → α × ε}
    (hmissing : Q missing)
    (h : ∀ e, (inner e).accounts = accounts → (inner (f e).2).accounts = accounts ∧ Q (f e).1) :
    (onEngine n missing f : Flow Wait (Registry ε) α).Secures (Holds inner w n accounts) Q := by
  refine .change fun s hs => ?_
  cases he : s.engines[n]? with
  | none => exact ⟨hs, hmissing⟩
  | some e =>
    obtain ⟨haccounts, hvalue⟩ := h e (hs.held e he)
    exact ⟨hs.withEngine haccounts, hvalue⟩

variable [Engine ε]

/-! ## Asking -/

/-- An engine in memory that holds the accounts would answer this. -/
def Tells (accounts : List StoredAccount) (c : Call) (answer : c.Answer) : Prop :=
  ∃ e : InMemoryEngine, e.accounts = accounts ∧ (e.answer c).1 = .ok answer

/-- To ask secures what its three accesses to the engine secure. -/
theorem ask_secures_of {P : Registry ε → Prop} {c : Call} {R : Option EngineError → Prop}
    {Q : Except EngineError c.Answer → Prop}
    (hreceive : (onEngine n (some noEngine) (Engine.receive c) :
      Flow Wait (Registry ε) (Option EngineError)).Secures P R)
    (hrefused : ∀ e, R (some e) → Q (.error e))
    (henter : (onEngine n {} (Engine.enter c) :
      Flow Wait (Registry ε) Passage).Secures P fun _ => True)
    (hanswer : (onEngine n (.error noEngine) (Engine.answer c) :
      Flow Wait (Registry ε) (Except EngineError c.Answer)).Secures P Q) :
    (ask n c : Flow Wait (Registry ε) (Except EngineError c.Answer)).Secures P Q := by
  unfold ask
  refine .bind hreceive fun refusal hrefusal => .bind (.pause _) fun _ _ => ?_
  cases refusal with
  | some refusal => exact .pure (hrefused refusal hrefusal)
  | none =>
    refine .bind henter fun passage _ => ?_
    cases passage.givesWay with
    | true => exact .bind (.pause _) fun _ _ => .bind (.pause _) fun _ _ => hanswer
    | false => exact .bind (.pause _) fun _ _ => hanswer

theorem ask_secures (hinner : HeldInMemory inner) (c : Call) (hc : c.Asks) :
    (ask n c : Flow Wait (Registry ε) (Except EngineError c.Answer)).Secures
      (Holds inner w n accounts) fun reply => ∀ answer, reply = .ok answer →
        Tells accounts c answer := by
  have hreceive : (onEngine n (some noEngine) (Engine.receive c) :
      Flow Wait (Registry ε) (Option EngineError)).Secures (Holds inner w n accounts)
        fun _ => True :=
    onEngine_secures trivial fun e he => ⟨by rw [hinner.receive, he], trivial⟩
  have henter : (onEngine n {} (Engine.enter c) :
      Flow Wait (Registry ε) Passage).Secures (Holds inner w n accounts) fun _ => True :=
    onEngine_secures trivial fun e he =>
      ⟨by rw [hinner.enter, InMemoryEngine.accounts_countCall, he], trivial⟩
  have hanswer : (onEngine n (.error noEngine) (Engine.answer c) :
      Flow Wait (Registry ε) (Except EngineError c.Answer)).Secures (Holds inner w n accounts)
        fun reply => ∀ answer, reply = .ok answer → Tells accounts c answer := by
    refine onEngine_secures (fun _ heq => nomatch heq) fun e he => ?_
    have hheld := hinner.answer c e
    have hreply : (Engine.answer c e).1 = ((inner e).answer c).1 := congrArg Prod.fst hheld
    have hleft : inner (Engine.answer c e).2 = ((inner e).answer c).2 := congrArg Prod.snd hheld
    refine ⟨?_, fun answer heq => ⟨inner e, he, hreply.symm.trans heq⟩⟩
    rw [hleft, InMemoryEngine.accounts_answer hc, he]
  exact ask_secures_of hreceive (fun _ _ _ heq => nomatch heq) henter hanswer

theorem call_secures (hinner : HeldInMemory inner) (c : Call) (hc : c.Asks) {a : Access}
    (ha : a.engine = n) :
    (call a c : Op ε c.Answer).Secures (Holds inner w n accounts) (Tells accounts c) := by
  subst ha
  refine Flow.Secures.bind (ask_secures hinner c hc) fun reply hreply => .pure fun answer heq => ?_
  cases reply with
  | error f => cases heq
  | ok answer' =>
    cases heq
    exact hreply _ rfl

theorem bears_of_tells {scope : Option KeyScope} {listing : AccountListing}
    (h : Tells accounts (.accounts scope) listing) :
    List.Forall₂ AccountInfo.Bears accounts listing.accounts := by
  obtain ⟨e, rfl, heq⟩ := h
  cases heq
  show List.Forall₂ _ e.accounts (e.accounts.map e.info)
  rw [List.forall₂_map_right_iff]
  exact List.forall₂_same.mpr fun _ _ => ⟨rfl, rfl⟩

theorem name_of_tells (hnumbers : (accounts.map (·.number)).Nodup) {a : StoredAccount}
    (ha : a ∈ accounts) {scope : Option KeyScope} {name : String}
    (h : Tells accounts (.accountName scope a.number) name) :
    name = a.name := by
  obtain ⟨e, rfl, heq⟩ := h
  unfold InMemoryEngine.answer at heq
  dsimp only at heq
  rw [InMemoryEngine.account?_of_nodup hnumbers ha] at heq
  cases heq
  rfl

theorem unspent_of_tells (hnames : (accounts.map (·.name)).Nodup) {a : StoredAccount}
    (ha : a ∈ accounts) {depths : Option Depths} {rows : List ReportedOutput}
    (h : Tells accounts (.unspent depths a.name) rows) :
    rows = a.unspent := by
  obtain ⟨e, rfl, heq⟩ := h
  have hreply : e.unspentOf a.name = .ok rows := heq
  unfold InMemoryEngine.unspentOf at hreply
  rw [InMemoryEngine.named?_of_nodup hnames ha] at hreply
  split at hreply
  · split at hreply <;> cases hreply
  · cases hreply
    rfl

theorem balance_of_tells {number confirmations : UInt32} {report : ReportedBalance}
    (h : Tells accounts (.balance number confirmations) report) :
    ∃ a, accounts.find? (·.number = number) = some a ∧ report = a.balance := by
  obtain ⟨e, rfl, heq⟩ := h
  have hreply : e.balanceOf number = .ok report := heq
  unfold InMemoryEngine.balanceOf InMemoryEngine.account? at hreply
  split at hreply
  · split at hreply <;> cases hreply
  · split at hreply
    · next a ha =>
      cases hreply
      exact ⟨a, ha, rfl⟩
    · cases hreply

/-! ## Operations -/

theorem price_secures (hinner : HeldInMemory inner) {a : StoredAccount} {access : Access}
    (haccess : access.engine = n) {info : AccountInfo} (h : info.Bears a) :
    (price w access info : Op ε Account).Secures (Holds inner w n accounts)
      fun account => account.toAccountInfo.Bears a := by
  unfold price accountBalance accept
  refine .bind .read fun s _ => .bind (Q := fun _ => True) ?_ fun _ _ => .pure h
  exact .bind (call_secures hinner (.balance _ _) trivial haccess) fun _ _ =>
    .conclude fun _ _ => trivial

/-- What is true of every account as it is priced is true of the accounts of the new picture. -/
theorem rebuild_secures (hinner : HeldInMemory inner) {R : StoredAccount → Account → Prop}
    (hprice : ∀ a ∈ accounts, ∀ (access : Access) (info : AccountInfo), access.engine = n →
      info.Bears a → (price w access info : Op ε Account).Secures (Holds inner w n accounts) (R a))
    {access : Access} (haccess : access.engine = n) (key : Nat) :
    (rebuild w key access : Op ε Accounts).Secures (Holds inner w n accounts)
      fun p => List.Forall₂ R accounts p.accounts := by
  unfold rebuild listAccounts
  refine .bind (Q := fun l => List.Forall₂ AccountInfo.Bears accounts l.accounts) ?_
    fun listing hlisting => ?_
  · refine .bind (call_secures hinner (.accounts _) trivial haccess) fun listing hlisting => .pure ?_
    rw [List.forall₂_map_right_iff]
    exact (bears_of_tells hlisting).imp fun _ _ h => ⟨h.number, h.name⟩
  · have hprices : List.Forall₂ (fun a info => (price w access info : Op ε Account).Secures
        (Holds inner w n accounts) (R a)) accounts listing.accounts := by
      rw [List.forall₂_iff_zip] at hlisting ⊢
      exact ⟨hlisting.1, fun hz =>
        hprice _ (List.of_mem_zip hz).1 access _ haccess (hlisting.2 hz)⟩
    refine .bind (.mapM hprices) fun priced hpriced => .bind (.pauseFor _) fun _ _ =>
      .bind (.write fun s hs => ?_) fun _ _ => .pure hpriced
    exact hs.of_same (sameWallets_putUp s key _) rfl

/-- What is true of every account as it is priced is true of what a refresh brings. -/
theorem refresh_secures_of (hinner : HeldInMemory inner) {R : StoredAccount → Account → Prop}
    (hprice : ∀ a ∈ accounts, ∀ (access : Access) (info : AccountInfo), access.engine = n →
      info.Bears a → (price w access info : Op ε Account).Secures (Holds inner w n accounts) (R a))
    (ticket : Nat) :
    (refresh ticket w : Op ε Accounts).Secures (Holds inner w n accounts)
      fun p => List.Forall₂ R accounts p.accounts := by
  unfold refresh acquire
  refine .bind (entry_secures w) fun kr hkr => .bind (Q := fun _ => True) ?_ fun _ _ =>
    .bind (.attempt (rebuild_secures hinner hprice hkr kr.1)) fun o ho =>
      .bind (.write fun s hs => ?_) fun _ _ => .conclude ho
  · exact .bind (.pauseFor _) fun _ _ =>
      .bind (.write fun s hs => hs.of_same (sameWallets_lineUp s kr.1 ticket) rfl)
        fun _ _ => .pauseFor _
  · exact hs.of_same (sameWallets_leave s ticket) rfl

/-- A refresh brings the numbers and names that the engine has. -/
theorem refresh_secures (hinner : HeldInMemory inner) (ticket : Nat) :
    (refresh ticket w : Op ε Accounts).Secures (Holds inner w n accounts)
      fun p => List.Forall₂ (fun a account => account.toAccountInfo.Bears a) accounts p.accounts :=
  refresh_secures_of hinner (fun _ _ _ _ haccess h => price_secures hinner haccess h) ticket

/-- A refresh brings the balances too, as far as they can be had by number. -/
theorem refresh_secures_priced (hinner : HeldInMemory inner) (ticket : Nat) :
    (refresh ticket w : Op ε Accounts).Secures (Holds inner w n accounts)
      fun p => List.Forall₂ (Account.Priced accounts) accounts p.accounts := by
  refine refresh_secures_of hinner (fun a _ access info haccess h => ?_) ticket
  unfold price accountBalance accept
  rw [h.number]
  refine .bind .read fun s _ => .bind (Q := fun b => ∃ x,
    accounts.find? (·.number = a.number) = some x ∧ x.balance.toBalance = .ok b) ?_
    fun b hb => .pure ⟨h, hb⟩
  refine .bind (call_secures hinner (.balance _ _) trivial haccess) fun report hreport =>
    .conclude fun b heq => ?_
  obtain ⟨x, hx, rfl⟩ := balance_of_tells hreport
  exact ⟨x, hx, ok_of_mapError heq⟩

/-- If no two accounts share a number these are their own balances. -/
theorem refresh_secures_balances (hinner : HeldInMemory inner)
    (hnumbers : (accounts.map (·.number)).Nodup) (ticket : Nat) :
    (refresh ticket w : Op ε Accounts).Secures (Holds inner w n accounts)
      fun p => List.Forall₂ Account.Shows accounts p.accounts := by
  refine Flow.Secures.mono (refresh_secures_priced hinner ticket) fun o ho p hp => ?_
  have hpriced : List.Forall₂ (Account.Priced accounts) accounts p.accounts := ho p hp
  show List.Forall₂ Account.Shows accounts p.accounts
  rw [List.forall₂_iff_zip] at hpriced ⊢
  refine ⟨hpriced.1, fun hz => ?_⟩
  obtain ⟨hinfo, x, hx, hbalance⟩ := hpriced.2 hz
  cases (find?_of_nodup hnumbers (List.of_mem_zip hz).1).symm.trans hx
  exact ⟨hinfo, hbalance⟩

/-- The outputs listed under a number are those of the account that has it. -/
theorem unspentOutputs_secures (hinner : HeldInMemory inner)
    (hnumbers : (accounts.map (·.number)).Nodup) (hnames : (accounts.map (·.name)).Nodup)
    {a : StoredAccount} (ha : a ∈ accounts) :
    (unspentOutputs w a.number : Op ε (List UnspentOutput)).Secures (Holds inner w n accounts)
      fun outputs => List.Forall₂ (UnspentOutput.TakenOver a.number) a.unspent outputs := by
  unfold unspentOutputs listUnspent accept
  refine .bind (access_secures w) fun access haccess =>
    .bind (call_secures hinner (.accountName _ _) trivial haccess) fun name hname => ?_
  obtain rfl := name_of_tells hnumbers ha hname
  refine .bind (call_secures hinner (.unspent _ _) trivial haccess) fun rows hrows =>
    .conclude fun outputs heq => ?_
  obtain rfl := unspent_of_tells hnames ha hrows
  exact takenOver_of_report (ok_of_mapError heq)

end Registry

end Purse
